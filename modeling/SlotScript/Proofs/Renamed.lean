import SlotScript.Proofs.Faults
import SlotScript.Proofs.Footprint
import SlotScript.Proofs.SlotLayout
import SlotScript.Proofs.SlotNames

/-! # Programs under other names

What becomes of a program, of its errors, its slots and its scopes when its variables
get other names.  Slots of variables get the new names, and slots of temporaries keep
theirs.  Which slots belong to temporaries can be read off the program: `Stmt.origins`
lists what slots are given out for, in order.

`Renamed` compares a step of lowering with the step for other names.  Steps in sequence
compose (`Renamed.bind`), and each single step gives out the same slots, or fails at
the same place, because names are only ever compared with each other
(`Scope.resolve_rename`, `Renamed.bindName`). -/

namespace SlotScript

open Lowering

/-! ### Renamed programs -/

/-- The token with another name. -/
def Token.rename (f : String → String) (t : Token) : Token := { t with lexeme := f t.lexeme }

/-- The expression with other names for its variables. -/
def Expr.rename (f : String → String) : Expr → Expr
  | .literal v => .literal v
  | .var name => .var (name.rename f)
  | .unary op operand => .unary op (operand.rename f)
  | .binary left op right => .binary (left.rename f) op (right.rename f)
  | .logical left op right => .logical (left.rename f) op (right.rename f)
  | .assign target value => .assign (target.rename f) (value.rename f)
  | .grouping inner => .grouping (inner.rename f)
  | .cast target operand => .cast target (operand.rename f)
  | .step op target isPrefix => .step op (target.rename f) isPrefix

mutual

/-- The statement with other names for its variables. -/
def Stmt.rename (f : String → String) : Stmt → Stmt
  | .expression e => .expression (e.rename f)
  | .print e => .print (e.rename f)
  | .block body => .block (Stmt.renameAll f body)
  | .declare type name initial => .declare type (name.rename f) (initial.map (Expr.rename f))
  | .conditional form keyword condition branches =>
    .conditional form keyword (condition.rename f) (Stmt.renameAll f branches)

/-- The statements with other names for their variables. -/
def Stmt.renameAll (f : String → String) : List Stmt → List Stmt
  | [] => []
  | s :: rest => s.rename f :: Stmt.renameAll f rest

end

/-- The names of variables in an expression. -/
def Expr.names : Expr → List String
  | .literal _ => []
  | .var name => [name.lexeme]
  | .unary _ e | .grouping e | .cast _ e => e.names
  | .binary left _ right | .logical left _ right => left.names ++ right.names
  | .assign target e => target.lexeme :: e.names
  | .step _ target _ => [target.lexeme]

mutual

/-- The names of variables in a statement. -/
def Stmt.names : Stmt → List String
  | .expression e | .print e => e.names
  | .block body => Stmt.allNames body
  | .declare _ name initial => name.lexeme :: (initial.map Expr.names).getD []
  | .conditional _ _ condition branches => condition.names ++ Stmt.allNames branches

/-- The names of variables in statements. -/
def Stmt.allNames : List Stmt → List String
  | [] => []
  | s :: rest => s.names ++ Stmt.allNames rest

end

/-- What slots are given out for in an expression, in order.  Only a step behind a
variable needs one. -/
def Expr.origins : Expr → List Access
  | .literal _ | .var _ => []
  | .unary _ e | .grouping e | .cast _ e | .assign _ e => e.origins
  | .binary left _ right | .logical left _ right => left.origins ++ right.origins
  | .step _ _ true => []
  | .step _ _ false => [.temporary]

mutual

/-- What slots are given out for in a statement, in order. -/
def Stmt.origins : Stmt → List Access
  | .expression e | .print e => e.origins
  | .block body => Stmt.allOrigins body
  | .declare _ name initial => .named name.lexeme :: (initial.map Expr.origins).getD []
  | .conditional _ _ _ _ => []

/-- What slots are given out for in statements, in order. -/
def Stmt.allOrigins : List Stmt → List Access
  | [] => []
  | s :: rest => s.origins ++ Stmt.allOrigins rest

end

/-! ### Renamed errors -/

/-- The fault is about a variable, and is found at its name. -/
def LowerFault.namesVariable : LowerFault → Bool
  | .undefinedVariable _ | .duplicateDeclaration _ | .assignmentMismatch _ _ _ => true
  | _ => false

/-- The fault with other names for variables. -/
def LowerFault.rename (f : String → String) : LowerFault → LowerFault
  | .undefinedVariable name => .undefinedVariable (f name)
  | .duplicateDeclaration name => .duplicateDeclaration (f name)
  | .assignmentMismatch name value target => .assignmentMismatch (f name) value target
  | fault => fault

/-- The place of a name with another name there. -/
def Location.rename (f : String → String) : Location → Location
  | .atLexeme lexeme => .atLexeme (f lexeme)
  | place => place

/-- The error with other names for variables. -/
def LowerError.rename (f : String → String) (e : LowerError) : LowerError :=
  if e.fault.namesVariable then ⟨e.line, e.location.rename f, e.fault.rename f⟩ else e

/-! ### Renamed slots -/

/-- The slot with another name. -/
def Slot.rename (f : String → String) (slot : Slot) : Slot := { slot with name := f slot.name }

/-- The slot with another name, unless it was given out for a temporary. -/
def Slot.renameIn (f : String → String) (origins : List Access) (slot : Slot) : Slot :=
  if origins[slot.index]? = some .temporary then slot else slot.rename f

/-- The slot is called as what it was given out for. -/
def Slot.OfOrigin (origins : List Access) (slot : Slot) : Prop :=
  origins[slot.index]? = some (.named slot.name) ∨
    origins[slot.index]? = some .temporary ∧ slot.name = "temp"

section slots

variable {f : String → String} {origins : List Access} {slot : Slot}

theorem Slot.renameIn_keepsPlace : Slot.KeepsPlace (Slot.renameIn f origins) := by
  intro slot
  unfold Slot.renameIn
  split
  · exact ⟨rfl, rfl⟩
  · exact ⟨rfl, rfl⟩

theorem Slot.renameIn_of_named (h : origins[slot.index]? = some (.named slot.name)) :
    slot.renameIn f origins = slot.rename f := by
  unfold Slot.renameIn
  rw [h, if_neg (by simp)]

theorem Slot.renameIn_of_temporary (h : origins[slot.index]? = some .temporary) :
    slot.renameIn f origins = slot := by
  unfold Slot.renameIn
  rw [if_pos h]

theorem LowerFault.OfTypes.nameless {fault : LowerFault} (h : fault.OfTypes) :
    fault.namesVariable = false := by
  cases fault with
  | undefinedVariable | duplicateDeclaration | assignmentMismatch => exact h.elim
  | _ => rfl

theorem LowerError.rename_of_nameless {t : Token} {fault : LowerFault}
    (h : fault.namesVariable = false) :
    (LowerError.atToken t fault).rename f = LowerError.atToken t fault := by
  unfold LowerError.rename LowerError.atToken
  rw [h]
  rfl

/-- An error at a name is found at the new name. -/
theorem LowerError.rename_of_names {t : Token} {fault : LowerFault}
    (h : fault.namesVariable = true) :
    (LowerError.atToken t fault).rename f =
      LowerError.atToken (t.rename f) (fault.rename f) := by
  have hplace : (Location.ofToken t).rename f = Location.ofToken (t.rename f) := by
    unfold Location.ofToken Token.rename
    simp only
    split
    · rfl
    · rfl
  simp [LowerError.rename, LowerError.atToken, h, hplace, Token.rename]

end slots

/-! ### Renamed scopes -/

/-- The scope with other names for its variables. -/
def Scope.rename (f : String → String) (s : Scope) : Scope :=
  ⟨s.globals.map (Slot.rename f), s.blocks.map (List.map (Slot.rename f))⟩

/-- The state with other names for its variables. -/
def Lowering.rename (f : String → String) (s : Lowering) : Lowering :=
  { s with scope := s.scope.rename f }

/-- Variables in force are called as what their slots were given out for. -/
def Lowering.Tracks (origins : List Access) (s : Lowering) : Prop :=
  ∀ slot ∈ s.scope.slots, origins[slot.index]? = some (.named slot.name)

/-- The renaming keeps different names different, and the variables that slots are given
out for are among them. -/
structure Distinguishes (f : String → String) (names : List String) (origins : List Access) :
    Prop where
  inj : ∀ a ∈ names, ∀ b ∈ names, f a = f b → a = b
  declared : ∀ name, Access.named name ∈ origins → name ∈ names

section scopes

variable {f : String → String} {origins : List Access} {names : List String} {name : String}

theorem Frame.lookup_rename {frame : Frame}
    (h : ∀ slot ∈ frame, f slot.name = f name → slot.name = name) :
    Frame.lookup (frame.map (Slot.rename f)) (f name) =
      (frame.lookup name).map (Slot.rename f) := by
  unfold Frame.lookup
  induction frame with
  | nil => rfl
  | cons slot rest ih =>
      have hrest := ih fun other ho => h other (List.mem_cons_of_mem _ ho)
      rw [List.map_cons]
      by_cases heq : slot.name = name
      · rw [List.find?_cons_of_pos (by simp [heq, Slot.rename]),
          List.find?_cons_of_pos (by simp [heq])]
        rfl
      · have hne : f slot.name ≠ f name := fun hf => heq (h slot List.mem_cons_self hf)
        rw [List.find?_cons_of_neg (by simpa [Slot.rename] using hne),
          List.find?_cons_of_neg (by simpa using heq)]
        exact hrest

theorem Scope.frames_rename (s : Scope) :
    (s.rename f).frames = s.frames.map (List.map (Slot.rename f)) := by
  simp [Scope.frames, Scope.rename]

theorem Scope.resolve_rename {s : Scope}
    (h : ∀ slot ∈ s.slots, f slot.name = f name → slot.name = name) :
    (s.rename f).resolve (f name) =
      match s.resolve name with
      | .ok slot => .ok (slot.rename f)
      | .error _ => .error (.undefinedVariable (f name)) := by
  have hfind : (s.rename f).frames.findSome? (·.lookup (f name)) =
      (s.frames.findSome? (·.lookup name)).map (Slot.rename f) := by
    rw [Scope.frames_rename]
    unfold Scope.slots at h
    generalize s.frames = frames at h
    induction frames with
    | nil => rfl
    | cons frame rest ih =>
        rw [List.flatten_cons] at h
        have hframe : Frame.lookup (frame.map (Slot.rename f)) (f name) =
            (frame.lookup name).map (Slot.rename f) :=
          Frame.lookup_rename fun slot hslot => h slot (List.mem_append_left _ hslot)
        have hrest := ih fun slot hslot => h slot (List.mem_append_right _ hslot)
        rw [List.map_cons, List.findSome?_cons, List.findSome?_cons, hframe, hrest]
        cases frame.lookup name with
        | none => rfl
        | some slot => rfl
  unfold Scope.resolve
  unfold Scope.frames at hfind
  rw [hfind]
  cases (s.blocks ++ [s.globals]).findSome? (·.lookup name) with
  | none => rfl
  | some slot => rfl

theorem Scope.grow_rename (s : Scope) (added : List Slot) :
    (s.grow added).rename f = (s.rename f).grow (added.map (Slot.rename f)) := by
  obtain ⟨globals, blocks⟩ := s
  cases blocks with
  | nil => simp [Scope.grow, Scope.rename]
  | cons frame rest => simp [Scope.grow, Scope.rename]

theorem Scope.current_rename (s : Scope) :
    (s.rename f).current = s.current.map (Slot.rename f) := by
  obtain ⟨globals, blocks⟩ := s
  cases blocks with
  | nil => rfl
  | cons frame rest => rfl

theorem Scope.mem_slots_of_current {s : Scope} {slot : Slot} (h : slot ∈ s.current) :
    slot ∈ s.slots := by
  obtain ⟨outer, hframes, -⟩ := s.frames_grow
  unfold Scope.slots
  rw [hframes]
  exact List.mem_append_left _ h

theorem Distinguishes.of_slot (hd : Distinguishes f names origins) (hname : name ∈ names)
    {slot : Slot} (hslot : origins[slot.index]? = some (.named slot.name))
    (heq : f slot.name = f name) : slot.name = name :=
  hd.inj _ (hd.declared _ (List.mem_of_getElem? hslot)) _ hname heq

theorem Frame.sorted_rename {frame : Frame} (h : Increasing frame.sorted) :
    sorted (frame.map (Slot.rename f)) = frame.sorted.map (Slot.rename f) := by
  apply sorted_of_perm
  · exact List.pairwise_map.mpr (h.imp fun hab => hab)
  · exact ((sorted_perm frame).map _).symm

end scopes

/-! ### Lowering under other names -/

/-- From a state and from the renamed state, the first computation and the second do the
same: both give out slots for `new`, with `map` between their results, or fail with the
same error up to names. -/
def Renamed {α : Type} (f : String → String) (origins : List Access) (new : List Access)
    (Q : α → Prop) (map : α → α) (x x' : Lower α) : Prop :=
  ∀ s : Lowering, s.Tracks origins → new <+: origins.drop s.slotCount →
    (∀ a t, x.run s = (.ok a, t) →
      x'.run (s.rename f) = (.ok (map a), t.rename f) ∧ t.Tracks origins ∧
        t.slotCount = s.slotCount + new.length ∧ Q a) ∧
    ∀ e t, x.run s = (.error e, t) → (x'.run (s.rename f)).1 = .error (e.rename f)

namespace Renamed

variable {f : String → String} {origins new new' : List Access} {names : List String}
  {α β : Type} {Q : α → Prop} {R : β → Prop} {map : α → α} {map' : β → β} {x x' : Lower α}

theorem pure {a b : α} (hb : b = map a) (hQ : Q a) :
    Renamed f origins [] Q map (Pure.pure a) (Pure.pure b) := by
  intro s hs _
  refine ⟨fun c t hrun => ?_, fun e t hrun => ?_⟩
  · obtain ⟨rfl, rfl⟩ := Attempt.pure_eq_ok.mp hrun
    rw [Attempt.pure_run, hb]
    exact ⟨rfl, hs, rfl, hQ⟩
  · cases hrun

theorem bind {k k' : α → Lower β} (hx : Renamed f origins new Q map x x')
    (hk : ∀ a, Q a → Renamed f origins new' R map' (k a) (k' (map a))) :
    Renamed f origins (new ++ new') R map' (x >>= k) (x' >>= k') := by
  intro s hs hnew
  obtain ⟨hok, herror⟩ := hx s hs ((List.prefix_append new new').trans hnew)
  -- Behind the first computation, the origins go on with those of the second.
  have hbehind : ∀ t : Lowering, t.slotCount = s.slotCount + new.length →
      new' <+: origins.drop t.slotCount := by
    intro t hcount
    obtain ⟨rest, hrest⟩ := hnew
    refine ⟨rest, ?_⟩
    rw [hcount, ← List.drop_drop, ← hrest, List.append_assoc, List.drop_left]
  refine ⟨fun b u hrun => ?_, fun e u hrun => ?_⟩
  · obtain ⟨a, t, hfirst, hsecond⟩ := Attempt.bind_eq_ok.mp hrun
    obtain ⟨hfirst', ht, hcount, hQ⟩ := hok a t hfirst
    obtain ⟨hsecond', hu, hcount', hR⟩ := (hk a hQ t ht (hbehind t hcount)).1 b u hsecond
    rw [Attempt.bind_of_ok hfirst']
    refine ⟨hsecond', hu, ?_, hR⟩
    rw [List.length_append]
    omega
  · cases hfirst : x.run s with
    | mk r t =>
        cases r with
        | ok a =>
            obtain ⟨hfirst', ht, hcount, hQ⟩ := hok a t hfirst
            rw [Attempt.bind_of_ok hfirst] at hrun
            rw [Attempt.bind_of_ok hfirst']
            exact (hk a hQ t ht (hbehind t hcount)).2 e u hrun
        | error e' =>
            rw [Attempt.bind_of_error hfirst] at hrun
            obtain rfl : e' = e := Except.error.inj (congrArg Prod.fst hrun)
            have hfirst' := herror e' t hfirst
            cases hrun' : x'.run (s.rename f) with
            | mk r' t' =>
                rw [hrun'] at hfirst'
                have hr' : r' = .error (e'.rename f) := hfirst'
                subst hr'
                rw [Attempt.bind_of_error hrun']

/-- What follows gives out no slots. -/
theorem andThen {k k' : α → Lower β} (hx : Renamed f origins new Q map x x')
    (hk : ∀ a, Q a → Renamed f origins [] R map' (k a) (k' (map a))) :
    Renamed f origins new R map' (x >>= k) (x' >>= k') := by
  have hboth := hx.bind hk
  rw [List.append_nil] at hboth
  exact hboth

theorem fail {e e' : LowerError} (h : e' = e.rename f) :
    Renamed f origins new Q map (Attempt.fail e) (Attempt.fail e') := by
  intro s _ _
  refine ⟨fun a t hrun => ?_, fun e₀ t hrun => ?_⟩
  · cases hrun
  · cases hrun
    rw [h]
    rfl

/-! #### Steps of lowering -/

theorem visit {t t' : Token} (h : t'.line = t.line) :
    Renamed f origins [] (fun _ => True) id (Lowering.visit t) (Lowering.visit t') := by
  intro s hs _
  refine ⟨fun a u hrun => ?_, fun e u hrun => ?_⟩
  · cases hrun
    unfold Lowering.visit
    rw [h]
    exact ⟨rfl, hs, rfl, trivial⟩
  · cases hrun

theorem currentLine :
    Renamed f origins [] (fun _ => True) id Lowering.currentLine Lowering.currentLine := by
  intro s hs _
  refine ⟨fun a t hrun => ?_, fun e t hrun => ?_⟩
  · cases hrun
    exact ⟨rfl, hs, rfl, trivial⟩
  · cases hrun

/-- A check that gives the same result, and a fault with the same place. -/
theorem checkAt {t t' : Token} {r r' : Except LowerFault α}
    (hok : ∀ a, r = .ok a → r' = .ok (map a) ∧ Q a)
    (herror : ∀ fault, r = .error fault → ∃ fault', r' = .error fault' ∧
      LowerError.atToken t' fault' = (LowerError.atToken t fault).rename f) :
    Renamed f origins [] Q map (Lowering.checkAt t r) (Lowering.checkAt t' r') := by
  intro s hs _
  cases r with
  | ok a =>
      obtain ⟨hr', hQ⟩ := hok a rfl
      subst hr'
      refine ⟨fun b u hrun => ?_, fun e u hrun => ?_⟩
      · cases hrun
        exact ⟨rfl, hs, rfl, hQ⟩
      · cases hrun
  | error fault =>
      obtain ⟨fault', hr', hplace⟩ := herror fault rfl
      subst hr'
      refine ⟨fun b u hrun => ?_, fun e u hrun => ?_⟩
      · cases hrun
      · cases hrun
        exact congrArg Except.error hplace

/-- A check whose faults have to do with no variable. -/
theorem checkNameless (t : Token) {r r' : Except LowerFault α} (hr : r' = r.map map)
    (h : Outcome.Yields r Q fun fault => fault.namesVariable = false) :
    Renamed f origins [] Q map (Lowering.checkAt t r) (Lowering.checkAt t r') := by
  rw [hr]
  apply checkAt
  · intro a ha
    rw [ha] at h ⊢
    exact ⟨rfl, h⟩
  · intro fault hfault
    rw [hfault] at h ⊢
    exact ⟨fault, rfl, (LowerError.rename_of_nameless h).symm⟩

theorem resolve (hd : Distinguishes f names origins) {name : Token} (hname : name.lexeme ∈ names) :
    Renamed f origins [] (fun slot => origins[slot.index]? = some (.named slot.name))
      (Slot.rename f) (Lowering.resolve name) (Lowering.resolve (name.rename f)) := by
  intro s hs hnew
  have hresolve := Scope.resolve_rename (s := s.scope) fun slot hslot =>
    hd.of_slot hname (hs slot hslot)
  have hcheck : Renamed f origins [] (fun slot => origins[slot.index]? = some (.named slot.name))
      (Slot.rename f) (Lowering.checkAt name (s.scope.resolve name.lexeme))
      (Lowering.checkAt (name.rename f) ((s.scope.rename f).resolve (f name.lexeme))) := by
    rw [hresolve]
    apply checkAt
    · intro slot hslot
      rw [hslot]
      exact ⟨rfl, hs slot (Scope.mem_slots_of_resolve hslot)⟩
    · intro fault hfault
      rw [hfault]
      refine ⟨_, rfl, ?_⟩
      have hundefined : fault = .undefinedVariable name.lexeme := by
        unfold Scope.resolve at hfault
        split at hfault
        · cases hfault
        · exact (Except.error.inj hfault).symm
      rw [hundefined, LowerError.rename_of_names rfl]
      rfl
  exact hcheck s hs hnew

theorem head_origin {a : Access} {n : Nat} (h : [a] <+: origins.drop n) : origins[n]? = some a := by
  obtain ⟨rest, hrest⟩ := h
  have hhead : (origins.drop n)[0]? = some a := by rw [← hrest]; rfl
  rw [List.getElem?_drop] at hhead
  exact hhead

theorem allocateVariable (name : String) (type : Ty) :
    Renamed f origins [.named name]
      (fun slot => origins[slot.index]? = some (.named slot.name)) (Slot.rename f)
      (allocate name type) (allocate (f name) type) := by
  intro s hs hnew
  refine ⟨fun slot t hrun => ?_, fun e t hrun => ?_⟩
  · obtain ⟨rfl, rfl⟩ := allocate_eq_ok.mp hrun
    exact ⟨rfl, hs, rfl, head_origin hnew⟩
  · cases hrun

theorem allocateTemporary (type : Ty) :
    Renamed f origins [.temporary]
      (fun slot => origins[slot.index]? = some .temporary ∧ slot.name = "temp") id
      (allocate "temp" type) (allocate "temp" type) := by
  intro s hs hnew
  refine ⟨fun slot t hrun => ?_, fun e t hrun => ?_⟩
  · obtain ⟨rfl, rfl⟩ := allocate_eq_ok.mp hrun
    exact ⟨rfl, hs, rfl, head_origin hnew, rfl⟩
  · cases hrun

theorem bindName (hd : Distinguishes f names origins) (name : Token) {slot : Slot}
    (hslot : origins[slot.index]? = some (.named slot.name)) :
    Renamed f origins [] (fun _ => True) id (Lowering.bindName name slot)
      (Lowering.bindName (name.rename f) (slot.rename f)) := by
  intro s hs _
  have hname := hd.declared _ (List.mem_of_getElem? hslot)
  have hlookup : (s.scope.rename f).current.lookup (f slot.name) =
      (s.scope.current.lookup slot.name).map (Slot.rename f) := by
    rw [Scope.current_rename]
    apply Frame.lookup_rename
    intro other hother heq
    exact hd.of_slot hname (hs other (Scope.mem_slots_of_current hother)) heq
  cases h : s.scope.current.lookup slot.name with
  | none =>
      rw [h] at hlookup
      have hrun' : (Lowering.bindName (name.rename f) (slot.rename f)).run (s.rename f) =
          (.ok (), ({ s with scope := s.scope.grow [slot] } : Lowering).rename f) := by
        refine bindName_eq_ok.mpr ⟨hlookup, ?_⟩
        simp only [Lowering.rename, Scope.grow_rename, List.map_cons, List.map_nil]
      refine ⟨fun u t hrun => ?_, fun e t hrun => ?_⟩
      · obtain ⟨-, rfl⟩ := bindName_eq_ok.mp hrun
        refine ⟨hrun', ?_, rfl, trivial⟩
        intro other hother
        rcases Scope.mem_slots_grow.mp hother with hold | hnew
        · exact hs other hold
        · rw [List.mem_singleton.mp hnew]
          exact hslot
      · have hok : (Lowering.bindName name slot).run s =
            (.ok (), { s with scope := s.scope.grow [slot] }) := bindName_eq_ok.mpr ⟨h, rfl⟩
        rw [hok] at hrun
        cases hrun
  | some found =>
      rw [h] at hlookup
      refine ⟨fun u t hrun => ?_, fun e t hrun => ?_⟩
      · have hnone := (bindName_eq_ok.mp hrun).1
        rw [h] at hnone
        cases hnone
      · simp only [Lowering.bindName, Attempt.run, Scope.declare, h] at hrun
        obtain rfl := Except.error.inj (congrArg Prod.fst hrun)
        rw [LowerError.rename_of_names rfl]
        simp only [Lowering.bindName, Attempt.run, Scope.declare, Lowering.rename]
        have hfound : (s.scope.rename f).current.lookup (slot.rename f).name =
            some (found.rename f) := hlookup
        rw [hfound]
        rfl

/-- The inside of a block, whose variables have slots with different numbers. -/
theorem inBlock {inside inside' : Lower α} (h : Renamed f origins new Q map inside inside')
    (hgrow : ∀ s t a, inside.run s = (.ok a, t) →
      ∃ added, t.scope = s.scope.grow added ∧ Frame.Increasing (Frame.sorted added)) :
    Renamed f origins new
      (fun result => Q result.1 ∧
        ∀ slot ∈ result.2, origins[slot.index]? = some (.named slot.name))
      (fun result => (map result.1, result.2.map (Slot.rename f)))
      (Lowering.inBlock inside) (Lowering.inBlock inside') := by
  intro s hs hnew
  have hpush : ({ s with scope := s.scope.push } : Lowering).Tracks origins := by
    unfold Lowering.Tracks
    rw [Scope.slots_push]
    exact hs
  obtain ⟨hok, herror⟩ := h { s with scope := s.scope.push } hpush hnew
  cases hinside : inside.run { s with scope := s.scope.push } with
  | mk r t =>
      cases r with
      | ok a =>
          obtain ⟨hinside', ht, hcount, hQ⟩ := hok a t hinside
          obtain ⟨added, hscope, hincreasing⟩ := hgrow _ _ _ hinside
          have hscope' : (t.rename f).scope =
              (s.scope.rename f).push.grow (added.map (Slot.rename f)) := by
            have hgrown := Scope.grow_rename (f := f) s.scope.push added
            rw [← hscope] at hgrown
            exact hgrown
          have hrun' : (Lowering.inBlock inside').run (s.rename f) = _ :=
            inBlock_of_ok hinside' hscope'
          rw [inBlock_of_ok hinside hscope]
          refine ⟨fun result u hrun => ?_, fun e u hrun => ?_⟩
          · cases hrun
            refine ⟨?_, hs, hcount, hQ, ?_⟩
            · rw [hrun', Frame.sorted_rename hincreasing]
              rfl
            · intro slot hslot
              apply ht
              rw [hscope]
              exact Scope.mem_slots_grow.mpr (.inr (Frame.mem_sorted.mp hslot))
          · cases hrun
      | error e₀ =>
          rw [inBlock_of_error hinside]
          refine ⟨fun result u hrun => ?_, fun e u hrun => ?_⟩
          · cases hrun
          · cases hrun
            have hinside' := herror _ _ hinside
            cases hrun' : inside'.run (({ s with scope := s.scope.push } : Lowering).rename f) with
            | mk r' t' =>
                rw [hrun'] at hinside'
                have hr' : r' = .error (e₀.rename f) := hinside'
                subst hr'
                have hblock : (Lowering.inBlock inside').run (s.rename f) = _ :=
                  inBlock_of_error hrun'
                rw [hblock]

end Renamed

end SlotScript
