import SlotScript.Program
import SlotScript.Proofs.Renamed

/-! # Renaming variables

A program means the same when its variables get other names, as long as different
variables keep different names.  Lowering gives the same code with the same slots
(`Expr.lower_renamed`, `Stmt.lowerAll_renamed`), and running it does not look at names.
A variable that is called `temp`, like the temporaries are, is no exception, before or
after.

The main statement is `lower_rename`. -/

namespace SlotScript

open Lowering

/-! ### Expressions -/

/-- The code has a value, and its slots are called as what they were given out for. -/
structure Code.Original (origins : List Access) (c : Code) : Prop where
  valued : c.Valued
  staysIn : c.StaysIn (Slot.OfOrigin origins)

section expressions

variable {f : String → String} {origins : List Access} {names : List String} {c : Code}

theorem Code.original_of_yields {r : Except LowerFault Code} {E : LowerFault → Prop}
    (h : Outcome.Yields r Code.Valued E) (hE : ∀ fault, E fault → fault.namesVariable = false)
    (hstays : ∀ d, r = .ok d → d.StaysIn (Slot.OfOrigin origins)) :
    Outcome.Yields r (Code.Original origins) fun fault => fault.namesVariable = false := by
  cases r with
  | ok d => exact ⟨h, hstays d rfl⟩
  | error fault => exact hE fault h

theorem Code.asStored_rename (h : c.Valued) (g : Slot → Slot) (slot : Slot) :
    (c.mapSlots g).asStored (slot.rename f) =
      ((c.asStored slot).map (Code.mapSlots g)).mapError (LowerFault.rename f) := by
  obtain ⟨t, ht⟩ := h
  unfold Code.asStored
  rw [Code.valueType_mapSlots, Code.valueType_eq_ok.mpr ht]
  simp only [bind, Except.bind, Slot.rename, Code.convertTo_mapSlots]
  split
  · rfl
  · rfl

namespace Renamed

/-- A value that is stored into a variable. -/
theorem checkStored (hc : c.Original origins) (slot : Slot) (name : Token) :
    Renamed f origins [] (Code.Original origins) (Code.mapSlots (Slot.renameIn f origins))
      (Lowering.checkAt name (c.asStored slot))
      (Lowering.checkAt (name.rename f)
        ((c.mapSlots (Slot.renameIn f origins)).asStored (slot.rename f))) := by
  have hyields := Code.asStored_yields hc.valued slot
  rw [Code.asStored_rename hc.valued]
  apply checkAt
  · intro d hd
    rw [hd] at hyields ⊢
    exact ⟨rfl, hyields, hc.staysIn.of_collect fun hf => Code.collect_asStored hf hd⟩
  · intro fault hfault
    rw [hfault] at hyields ⊢
    obtain ⟨t, rfl⟩ := hyields
    exact ⟨_, rfl, (LowerError.rename_of_names rfl).symm⟩

theorem applyUnary (hc : c.Original origins) (op : Token) :
    Renamed f origins [] (Code.Original origins) (Code.mapSlots (Slot.renameIn f origins))
      (Lowering.applyUnary op c)
      (Lowering.applyUnary op (c.mapSlots (Slot.renameIn f origins))) := by
  have finish : ∀ (operator : UnaryOp) (r r' : Except LowerFault Code),
      r' = r.map (Code.mapSlots (Slot.renameIn f origins)) →
      Outcome.Yields r Code.Valued LowerFault.OfTypes →
      (∀ d, r = .ok d → d.StaysIn (Slot.OfOrigin origins)) →
      Renamed f origins [] (Code.Original origins) (Code.mapSlots (Slot.renameIn f origins))
        (do
          let d ← Lowering.checkAt op r
          return .unary operator d ⟨d.type, ← Lowering.currentLine⟩)
        (do
          let d ← Lowering.checkAt op r'
          return .unary operator d ⟨d.type, ← Lowering.currentLine⟩) := by
    intro operator r r' hr hyields hstays
    have hchecked := Code.original_of_yields hyields (fun _ => LowerFault.OfTypes.nameless) hstays
    refine (checkNameless op hr hchecked).bind fun d hd => ?_
    refine currentLine.bind fun line _ => pure ?_ ⟨hd.valued, ?_⟩
    · simp [Code.mapSlots]
    · exact hd.staysIn.of_collect fun hf => Code.collect_around hf rfl rfl
  unfold Lowering.applyUnary
  split
  · exact finish .negate _ _ (Code.asNumeric_mapSlots c) (Code.asNumeric_yields hc.valued)
      fun d hd => hc.staysIn.of_collect fun hf => Code.collect_asNumeric hf hd
  · exact finish .not _ _ (Code.asBoolean_mapSlots c) (Code.asBoolean_yields hc.valued)
      fun d hd => hc.staysIn.of_collect fun hf => Code.collect_asBoolean hf hd
  · exact finish .complement _ _ (Code.asIntegral_mapSlots c) (Code.asIntegral_yields hc.valued)
      fun d hd => hc.staysIn.of_collect fun hf => Code.collect_asIntegral hf hd
  · exact fail (LowerError.rename_of_nameless rfl).symm

theorem stepVariable (hd : Distinguishes f names origins) (op : Token) {target : Token}
    (htarget : target.lexeme ∈ names) (isPrefix : Bool) :
    Renamed f origins (Expr.step op target isPrefix).origins (Code.Original origins)
      (Code.mapSlots (Slot.renameIn f origins)) (Lowering.stepVariable op target isPrefix)
      (Lowering.stepVariable op (target.rename f) isPrefix) := by
  unfold Lowering.stepVariable
  refine (resolve hd htarget).bind fun slot hslot => ?_
  have htype : (slot.rename f).type = slot.type := rfl
  have hrenamed := Slot.renameIn_of_named (f := f) hslot
  have hkeeps : Slot.KeepsPlace (Slot.renameIn f origins) := Slot.renameIn_keepsPlace
  rw [htype]
  cases stepValue? slot.type with
  | none => exact fail (LowerError.rename_of_nameless rfl).symm
  | some one =>
      have hupdate : Code.stepSlot (slot.rename f) op one =
          (Code.stepSlot slot op one).mapSlots (Slot.renameIn f origins) := by
        rw [Code.stepSlot_mapSlots hkeeps, hrenamed]
      cases isPrefix with
      | true =>
          exact pure hupdate ⟨⟨slot.type, rfl⟩, Code.staysIn_stepSlot (.inl hslot) op one⟩
      | false =>
          refine (allocateTemporary slot.type).andThen fun temp htemp => pure ?_ ⟨?_, ?_⟩
          · show Code.ofBlock [temp] [.storeTo temp (.loadFrom (slot.rename f) op.line) op.line,
                .stepSlot (slot.rename f) op one, .loadFrom temp op.line] op.line =
              (Code.ofBlock [temp] [.storeTo temp (.loadFrom slot op.line) op.line,
                .stepSlot slot op one, .loadFrom temp op.line] op.line).mapSlots _
            rw [Code.ofBlock_mapSlots, hupdate]
            simp only [List.map_cons, List.map_nil, Code.storeTo_mapSlots hkeeps,
              Code.loadFrom_mapSlots hkeeps, Slot.renameIn_of_temporary htemp.1, hrenamed]
          · exact ⟨temp.type, rfl⟩
          · apply Code.staysIn_ofBlock
            · intro other hother
              rw [List.mem_singleton.mp hother]
              exact .inr htemp
            · intro d hd
              simp only [List.mem_cons, List.not_mem_nil, or_false] at hd
              rcases hd with rfl | rfl | rfl
              · exact (Code.staysIn_loadFrom (.inl hslot) op.line).storeTo (.inr htemp) op.line
              · exact Code.staysIn_stepSlot (.inl hslot) op one
              · exact Code.staysIn_loadFrom (.inr htemp) op.line

end Renamed

/-- Lowering a renamed expression gives the renamed code. -/
theorem Expr.lower_renamed (hd : Distinguishes f names origins) {e : Expr}
    (he : e.names ⊆ names) :
    Renamed f origins e.origins (Code.Original origins)
      (Code.mapSlots (Slot.renameIn f origins)) e.lower (e.rename f).lower := by
  have hkeeps : Slot.KeepsPlace (Slot.renameIn f origins) := Slot.renameIn_keepsPlace
  induction e with
  | literal v =>
      exact Renamed.currentLine.bind fun line _ =>
        .pure rfl ⟨⟨v.type, rfl⟩, Code.staysIn_ofValue _ _ _⟩
  | grouping inner ih => exact ih he
  | var name =>
      refine (Renamed.visit rfl).bind fun _ _ => ?_
      refine (Renamed.resolve hd (he List.mem_cons_self)).bind fun slot hslot => ?_
      refine .pure ?_ ⟨⟨slot.type, rfl⟩, Code.staysIn_loadFrom (.inl hslot) name.line⟩
      rw [Code.loadFrom_mapSlots hkeeps, Slot.renameIn_of_named hslot]
      rfl
  | assign target value ih =>
      have hvalue := ih (List.subset_of_cons_subset he)
      refine (Renamed.visit rfl).bind fun _ _ => ?_
      refine (Renamed.resolve hd (he List.mem_cons_self)).bind fun slot hslot => ?_
      refine hvalue.andThen fun code hcode => ?_
      refine (Renamed.checkStored hcode slot target).bind fun stored hstored => ?_
      refine .pure ?_ ⟨⟨slot.type, rfl⟩, hstored.staysIn.storeTo (.inl hslot) target.line⟩
      rw [Code.storeTo_mapSlots hkeeps, Slot.renameIn_of_named hslot]
      rfl
  | unary op operand ih =>
      refine (Renamed.visit rfl).bind fun _ _ => ?_
      exact (ih he).andThen fun code hcode => Renamed.applyUnary hcode op
  | binary left op right ihl ihr =>
      obtain ⟨hl, hr⟩ := List.append_subset.mp he
      refine (Renamed.visit rfl).bind fun _ _ => ?_
      refine (ihl hl).bind fun l hl => (ihr hr).andThen fun r hr => ?_
      refine Renamed.checkNameless op (Code.combine_mapSlots l op r) ?_
      apply Code.original_of_yields (Code.combine_yields hl.valued hr.valued)
      · intro fault hfault
        rcases hfault with htypes | ⟨-, rfl⟩
        · exact htypes.nameless
        · rfl
      · intro d hcombined
        exact hl.staysIn.of_pair hr.staysIn fun hf => Code.collect_combine hf hcombined
  | logical left op right ihl ihr =>
      obtain ⟨hl, hr⟩ := List.append_subset.mp he
      -- Each operand is turned into a truth value as soon as it is lowered.
      have hboolean : ∀ {c : Code}, c.Original origins →
          Renamed f origins [] (Code.Original origins)
            (Code.mapSlots (Slot.renameIn f origins)) (checkAt op c.asBoolean)
            (checkAt op (c.mapSlots (Slot.renameIn f origins)).asBoolean) := by
        intro c hc
        apply Renamed.checkNameless op (Code.asBoolean_mapSlots c)
        apply Code.original_of_yields (Code.asBoolean_yields hc.valued)
        · exact fun _ => LowerFault.OfTypes.nameless
        · exact fun d hd => hc.staysIn.of_collect fun hf => Code.collect_asBoolean hf hd
      refine (Renamed.visit rfl).bind fun _ _ => (ihl hl).bind fun l hl => ?_
      refine (hboolean hl).bind fun l' hl' => (ihr hr).andThen fun r hr => ?_
      refine (hboolean hr).bind fun r' hr' => Renamed.currentLine.bind fun line _ => ?_
      refine .pure rfl ⟨⟨.bool, rfl⟩, ?_⟩
      exact hl'.staysIn.of_pair hr'.staysIn fun hf => Code.collect_pair hf rfl rfl
  | cast target operand ih =>
      refine (Renamed.visit rfl).bind fun _ _ => (ih he).andThen fun code hcode => ?_
      refine Renamed.checkNameless target (Code.castTo_mapSlots code _ _) ?_
      apply Code.original_of_yields (Code.castTo_yields hcode.valued _ _)
      · intro fault hfault
        rcases hfault with htypes | ⟨-, rfl⟩
        · exact htypes.nameless
        · rfl
      · intro d hcast
        exact hcode.staysIn.of_collect fun hf => Code.collect_castTo hf hcast
  | step op target isPrefix =>
      refine (Renamed.visit rfl).bind fun _ _ => ?_
      exact Renamed.stepVariable hd op (he List.mem_cons_self) isPrefix

end expressions

/-! ### Statements -/

section statements

variable {f : String → String} {origins : List Access} {names : List String}

/-- What lowering the inside of a block does to the scope. -/
theorem Stmt.lowerAll_grow {stmts : List Stmt} {s t : Lowering} {codes : List Code}
    (h : (Stmt.lowerAll stmts).run s = (.ok codes, t)) :
    ∃ added, t.scope = s.scope.grow added ∧ Frame.Increasing (Frame.sorted added) := by
  obtain ⟨added, vars, temps, hgives, -, -⟩ := (Stmt.lowerAll_eq_ok.mp h).lays
  exact ⟨added, hgives.scope, hgives.sorted_increasing⟩

mutual

theorem Stmt.lower_renamed (hd : Distinguishes f names origins) :
    ∀ {stmt : Stmt}, stmt.names ⊆ names →
      Renamed f origins stmt.origins (Code.StaysIn (Slot.OfOrigin origins))
        (Code.mapSlots (Slot.renameIn f origins)) stmt.lower (stmt.rename f).lower
  | .expression e, h => by
      rw [Stmt.rename, Stmt.lower, Stmt.lower]
      intro s hs hnew
      obtain ⟨hok, herror⟩ := Expr.lower_renamed hd h s hs hnew
      refine ⟨fun c t hrun => ?_, herror⟩
      obtain ⟨hrun', ht, hcount, hc⟩ := hok c t hrun
      exact ⟨hrun', ht, hcount, hc.staysIn⟩
  | .print e, h => by
      rw [Stmt.rename, Stmt.lower, Stmt.lower]
      refine (Expr.lower_renamed hd h).andThen fun code hcode => .pure ?_ ?_
      · rw [Code.mapSlots, Code.line_mapSlots]
      · exact hcode.staysIn.print _
  | .declare type name initial, h => by
      have hkeeps : Slot.KeepsPlace (Slot.renameIn f origins) := Slot.renameIn_keepsPlace
      rw [Stmt.rename, Stmt.lower, Stmt.lower]
      refine (Renamed.visit rfl).bind fun _ _ => ?_
      refine (Renamed.allocateVariable name.lexeme type).bind fun slot hslot => ?_
      refine (Renamed.bindName hd name hslot).bind fun _ _ => ?_
      cases initial with
      | none =>
          refine .pure ?_ ((Code.staysIn_ofValue _ _ _).storeTo (.inl hslot) name.line)
          rw [Code.storeTo_mapSlots hkeeps, Slot.renameIn_of_named hslot]
          rfl
      | some e =>
          refine (Expr.lower_renamed hd (List.subset_of_cons_subset h)).andThen
            fun code hcode => ?_
          refine (Renamed.checkStored hcode slot name).bind fun stored hstored => ?_
          refine .pure ?_ (hstored.staysIn.storeTo (.inl hslot) name.line)
          rw [Code.storeTo_mapSlots hkeeps, Slot.renameIn_of_named hslot]
          rfl
  | .block body, h => by
      rw [Stmt.rename, Stmt.lower, Stmt.lower]
      refine ((Stmt.lowerAll_renamed hd h).inBlock fun s t a => Stmt.lowerAll_grow).andThen
        fun result hresult => ?_
      obtain ⟨codes, slots⟩ := result
      obtain ⟨hcodes, hslots⟩ := hresult
      refine Renamed.currentLine.bind fun line _ => .pure ?_ ?_
      · have hnames : slots.map (Slot.renameIn f origins) = slots.map (Slot.rename f) :=
          List.map_congr_left fun slot hslot => Slot.renameIn_of_named (hslots slot hslot)
        have hline : (codes.map (Code.mapSlots (Slot.renameIn f origins))).head?.map Code.line =
            codes.head?.map Code.line := by
          cases codes with
          | nil => rfl
          | cons c rest => simp
        rw [Code.ofBlock_mapSlots, hnames]
        simp only [hline, id]
      · exact Code.staysIn_ofBlock (fun slot hslot => .inl (hslots slot hslot)) hcodes _
  | .conditional form keyword condition branches, _ => by
      rw [Stmt.rename, Stmt.lower, Stmt.lower]
      exact .fail (LowerError.rename_of_nameless rfl).symm

theorem Stmt.lowerAll_renamed (hd : Distinguishes f names origins) :
    ∀ {stmts : List Stmt}, Stmt.allNames stmts ⊆ names →
      Renamed f origins (Stmt.allOrigins stmts)
        (fun codes => ∀ c ∈ codes, c.StaysIn (Slot.OfOrigin origins))
        (List.map (Code.mapSlots (Slot.renameIn f origins))) (Stmt.lowerAll stmts)
        (Stmt.lowerAll (Stmt.renameAll f stmts))
  | [], _ => by
      rw [Stmt.renameAll, Stmt.lowerAll]
      exact .pure rfl fun c hc => nomatch hc
  | stmt :: rest, h => by
      obtain ⟨hstmt, hrest⟩ := List.append_subset.mp h
      rw [Stmt.renameAll, Stmt.lowerAll, Stmt.lowerAll]
      refine (Stmt.lower_renamed hd hstmt).bind fun code hcode => ?_
      refine (Stmt.lowerAll_renamed hd hrest).andThen fun codes hcodes => .pure rfl ?_
      exact List.forall_mem_cons.mpr ⟨hcode, hcodes⟩

end

end statements

/-! ### Programs -/

theorem Expr.origins_temporary {e : Expr} {a : Access} (h : a ∈ e.origins) : a = .temporary := by
  induction e with
  | literal | var => cases h
  | unary _ _ ih | grouping _ ih | cast _ _ ih | assign _ _ ih => exact ih h
  | binary _ _ _ ihl ihr | logical _ _ _ ihl ihr =>
      rcases List.mem_append.mp h with hl | hr
      · exact ihl hl
      · exact ihr hr
  | step op target isPrefix =>
      cases isPrefix with
      | true => cases h
      | false => exact List.mem_singleton.mp h

mutual

theorem Stmt.mem_names_of_origins {name : String} :
    ∀ {stmt : Stmt}, Access.named name ∈ stmt.origins → name ∈ stmt.names
  | .expression e, h | .print e, h => by
      have hne := Expr.origins_temporary h
      cases hne
  | .block body, h => Stmt.mem_allNames_of_allOrigins h
  | .declare type x initial, h => by
      rcases List.mem_cons.mp h with hx | hinitial
      · cases hx
        exact List.mem_cons_self
      · cases initial with
        | none => cases hinitial
        | some e =>
            have hne := Expr.origins_temporary hinitial
            cases hne
  | .conditional _ _ _ _, h => by cases h

theorem Stmt.mem_allNames_of_allOrigins {name : String} :
    ∀ {stmts : List Stmt}, Access.named name ∈ Stmt.allOrigins stmts → name ∈ Stmt.allNames stmts
  | [], h => by cases h
  | stmt :: rest, h => by
      rcases List.mem_append.mp h with hin | hin
      · exact List.mem_append_left _ (Stmt.mem_names_of_origins hin)
      · exact List.mem_append_right _ (Stmt.mem_allNames_of_allOrigins hin)

end

section programs

variable {f : String → String} {program : List Stmt}

/-- What lowering the whole program does under other names. -/
theorem Stmt.lowerAll_renamed_start
    (hd : Distinguishes f (Stmt.allNames program) (Stmt.allOrigins program)) :
    (∀ codes t, (Stmt.lowerAll program).run start = (.ok codes, t) →
      (Stmt.lowerAll (Stmt.renameAll f program)).run start =
          (.ok (codes.map (Code.mapSlots (Slot.renameIn f (Stmt.allOrigins program)))),
            t.rename f) ∧
        t.Tracks (Stmt.allOrigins program) ∧
        t.slotCount = 0 + (Stmt.allOrigins program).length ∧
        ∀ c ∈ codes, c.StaysIn (Slot.OfOrigin (Stmt.allOrigins program))) ∧
    ∀ e t, (Stmt.lowerAll program).run start = (.error e, t) →
      ((Stmt.lowerAll (Stmt.renameAll f program)).run start).1 = .error (e.rename f) := by
  have hstart : start.Tracks (Stmt.allOrigins program) := by
    intro slot hslot
    cases hslot
  exact Stmt.lowerAll_renamed hd (List.Subset.refl _) start hstart (List.prefix_refl _)

theorem lower_rename_error
    (hd : Distinguishes f (Stmt.allNames program) (Stmt.allOrigins program)) {e : LowerError}
    (h : lower program = .error e) : lower (Stmt.renameAll f program) = .error (e.rename f) := by
  unfold lower at h
  split at h
  · cases h
  · rename_i e' t hrun
    obtain rfl := Except.error.inj h
    have hrun' := (Stmt.lowerAll_renamed_start hd).2 e' t hrun
    unfold lower
    split
    · rename_i codes u hcodes
      rw [hcodes] at hrun'
      cases hrun'
    · rename_i e'' u hfailed
      rw [hfailed] at hrun'
      rw [Except.error.inj hrun']

/-- The code is the same up to the names of slots, there is an origin for each slot, and
slots are called as their origins say. -/
theorem lower_rename_ok
    (hd : Distinguishes f (Stmt.allNames program) (Stmt.allOrigins program)) {p : Lowered}
    (h : lower program = .ok p) :
    lower (Stmt.renameAll f program) =
        .ok ⟨p.root.mapSlots (Slot.renameIn f (Stmt.allOrigins program)), p.slotCount⟩ ∧
      (Stmt.allOrigins program).length = p.slotCount ∧
      p.root.StaysIn (Slot.OfOrigin (Stmt.allOrigins program)) := by
  obtain ⟨codes, t, added, hl, ht, rfl⟩ := lower_eq_ok_iff.mp h
  have hrun := Stmt.lowerAll_eq_ok.mpr hl
  obtain ⟨hrun', htracks, hcount, hcodes⟩ := (Stmt.lowerAll_renamed_start hd).1 codes t hrun
  obtain ⟨added', hgrown, hincreasing⟩ := Stmt.lowerAll_grow hrun
  have hframe : added' = added := congrArg Scope.globals (hgrown.symm.trans ht)
  subst hframe
  have hslots : ∀ slot ∈ Frame.sorted added',
      (Stmt.allOrigins program)[slot.index]? = some (.named slot.name) := by
    intro slot hslot
    apply htracks
    rw [hgrown]
    exact Scope.mem_slots_grow.mpr (.inr (Frame.mem_sorted.mp hslot))
  refine ⟨?_, ?_, Code.staysIn_ofBlock (fun slot hslot => .inl (hslots slot hslot)) hcodes 1⟩
  · refine lower_eq_ok_iff.mpr ⟨_, _, added'.map (Slot.rename f),
      Stmt.lowerAll_eq_ok.mp hrun', ?_, ?_⟩
    · simp only [Lowering.rename, ht, Scope.rename, List.map_nil]
    · rw [Code.ofBlock_mapSlots, Frame.sorted_rename hincreasing,
        List.map_congr_left fun slot hslot => Slot.renameIn_of_named (hslots slot hslot)]
      rfl
  · rw [hcount]
    exact (Nat.zero_add _).symm

end programs

/-- Under other names for its variables a program is lowered to the same code with the
same slots, or fails in the same way.  Slots of variables are called by the new names,
slots of temporaries `temp` as before; the program runs as before. -/
theorem lower_rename (f : String → String) (program : List Stmt)
    (hf : ∀ a ∈ Stmt.allNames program, ∀ b ∈ Stmt.allNames program, f a = f b → a = b) :
    (∀ e, lower program = .error e →
      lower (Stmt.renameAll f program) = .error (e.rename f)) ∧
    ∀ p, lower program = .ok p →
      lower (Stmt.renameAll f program) =
        .ok ⟨p.root.mapSlots (Slot.renameIn f (Stmt.allOrigins program)), p.slotCount⟩ ∧
      (Stmt.allOrigins program).length = p.slotCount ∧
      p.root.StaysIn (Slot.OfOrigin (Stmt.allOrigins program)) ∧
      ∀ sink, execute (Stmt.renameAll f program) sink = execute program sink := by
  have hd : Distinguishes f (Stmt.allNames program) (Stmt.allOrigins program) :=
    ⟨hf, fun name => Stmt.mem_allNames_of_allOrigins⟩
  refine ⟨fun e h => lower_rename_error hd h, fun p h => ?_⟩
  obtain ⟨hlowered, hlength, hstays⟩ := lower_rename_ok hd h
  refine ⟨hlowered, hlength, hstays, fun sink => ?_⟩
  have hkeeps : Slot.KeepsPlace (Slot.renameIn f (Stmt.allOrigins program)) :=
    Slot.renameIn_keepsPlace
  unfold execute
  rw [h, hlowered]
  simp only [Lowered.run_mapSlots hkeeps p]

/-- `int temp; int x = temp++;` -/
def steppedTemp : List Stmt :=
  let temp : Token := ⟨.identifier, "temp", 1, none⟩
  let x : Token := ⟨.identifier, "x", 1, none⟩
  [.declare .int temp none,
    .declare .int x (some (.step ⟨.increment, "++", 1, none⟩ temp false))]

/-- `temp` and `x` change their names. -/
def swapTemp (name : String) : String :=
  if name = "temp" then "x" else if name = "x" then "temp" else name

/-- The variable that was called `temp` gets another name and the other variable gets
its name, while the temporary keeps its name. -/
theorem lower_rename_temp :
    (∀ a ∈ Stmt.allNames steppedTemp, ∀ b ∈ Stmt.allNames steppedTemp,
      swapTemp a = swapTemp b → a = b) ∧
    ∃ p p', lower steppedTemp = .ok p ∧ lower (Stmt.renameAll swapTemp steppedTemp) = .ok p' ∧
      p.root.blockSlots = [[⟨0, .int, "temp"⟩, ⟨1, .int, "x"⟩], [⟨2, .int, "temp"⟩]] ∧
      p'.root = p.root.mapSlots
        (Slot.renameIn swapTemp [.named "temp", .named "x", .temporary]) ∧
      p'.root.blockSlots = [[⟨0, .int, "x"⟩, ⟨1, .int, "temp"⟩], [⟨2, .int, "temp"⟩]] ∧
      ∀ sink, execute (Stmt.renameAll swapTemp steppedTemp) sink = execute steppedTemp sink := by
  let tree (stepped x temp : Slot) : Code :=
    .ofBlock (Frame.sorted [stepped, x])
      [.storeTo stepped (.ofValue (.int 0) .int 1) 1,
        .storeTo x (.ofBlock [temp] [.storeTo temp (.loadFrom stepped 1) 1,
          .stepSlot stepped ⟨.increment, "++", 1, none⟩ (.int 1), .loadFrom temp 1] 1) 1] 1
  have hblocks : ∀ a b c : String, (tree ⟨0, .int, a⟩ ⟨1, .int, b⟩ ⟨2, .int, c⟩).blockSlots =
      [[⟨0, .int, a⟩, ⟨1, .int, b⟩], [⟨2, .int, c⟩]] := by
    intro a b c
    have hsorted : Frame.sorted [⟨0, .int, a⟩, ⟨1, .int, b⟩] = [⟨0, .int, a⟩, ⟨1, .int, b⟩] :=
      Frame.sorted_of_perm (by simp [Frame.Increasing]) (.refl _)
    simp [tree, hsorted]
  have hswap : ∀ a ∈ Stmt.allNames steppedTemp, ∀ b ∈ Stmt.allNames steppedTemp,
      swapTemp a = swapTemp b → a = b := by decide
  have hlower : lower steppedTemp =
      .ok ⟨tree ⟨0, .int, "temp"⟩ ⟨1, .int, "x"⟩ ⟨2, .int, "temp"⟩, 3⟩ := rfl
  have hlower' : lower (Stmt.renameAll swapTemp steppedTemp) =
      .ok ⟨tree ⟨0, .int, "x"⟩ ⟨1, .int, "temp"⟩ ⟨2, .int, "temp"⟩, 3⟩ := rfl
  obtain ⟨hrenamed, -, -, hexecute⟩ := (lower_rename swapTemp steppedTemp hswap).2 _ hlower
  have hroot := congrArg Lowered.root (Except.ok.inj (hlower'.symm.trans hrenamed))
  exact ⟨hswap, _, _, hlower, hlower', hblocks _ _ _, hroot, hblocks _ _ _, hexecute⟩

end SlotScript
