import SlotScript.Proofs.Lowers
import SlotScript.Proofs.TypeSystem

/-! # Lowering decides the type system

Lowering succeeds exactly on what is well typed, and notes the type that the rules
give (`lower_decides_types`).  The classes of types and the tables of operators are
matched first, against the functions that prepare and join operands; then the rules
for expressions and statements, by induction over lowering in one direction and over
the typing in the other.  What links a state of lowering to an environment is only
the names and types of the variables in its scope (`Scope.env`). -/

namespace SlotScript

open Typing

/-! ## Classes of types -/

namespace Typing

theorem numeric_iff {t : Ty} : Numeric t ↔ t.isNumeric = true := by
  rw [Ty.isNumeric_iff]
  constructor
  · rintro (_ | _ | _) <;> simp
  · rintro (rfl | rfl | rfl)
    · exact .int
    · exact .long
    · exact .double

theorem whole_iff {t : Ty} : Whole t ↔ t.isIntegral = true := by
  rw [Ty.isIntegral_iff]
  constructor
  · rintro (_ | _) <;> simp
  · rintro (rfl | rfl)
    · exact .int
    · exact .long

theorem Whole.numeric {t : Ty} (h : Whole t) : Numeric t := by
  cases h with
  | int => exact .int
  | long => exact .long

theorem Numeric.ne_string {t : Ty} (h : Numeric t) : t ≠ .string := by
  rintro rfl
  cases h

theorem numericOrChar_iff {t : Ty} : NumericOrChar t ↔ t.isScalar = true := by
  unfold Ty.isScalar
  rw [Bool.or_eq_true, ← numeric_iff, beq_iff_eq]
  constructor
  · rintro (h | _)
    · exact .inl h
    · exact .inr rfl
  · rintro (h | rfl)
    · exact .numeric h
    · exact .char

theorem widens_iff {s t : Ty} : Widens s t ↔ s.widens t = true := by
  constructor
  · rintro (_ | _ | _ | _)
    · simp [Ty.widens]
    · decide
    · decide
    · decide
  · intro h
    unfold Ty.widens at h
    rw [Bool.or_eq_true, beq_iff_eq] at h
    rcases h with rfl | h
    · exact .same s
    · cases s <;> cases t <;>
        first
        | exact .intLong
        | exact .intDouble
        | exact .longDouble
        | exact absurd h (by decide)

theorem wider_iff {l r t : Ty} (hl : Numeric l) (hr : Numeric r) :
    Wider l r t ↔ l.promoteNumeric r = .ok t := by
  rw [Ty.promoteNumeric_eq_ok]
  constructor
  · rintro (h | h)
    · exact ⟨numeric_iff.mp hl, numeric_iff.mp hr, .inl rfl, widens_iff.mp (.same l),
        widens_iff.mp h⟩
    · exact ⟨numeric_iff.mp hl, numeric_iff.mp hr, .inr rfl, widens_iff.mp h,
        widens_iff.mp (.same r)⟩
  · rintro ⟨-, -, rfl | rfl, hleft, hright⟩
    · exact .left (widens_iff.mpr hright)
    · exact .right (widens_iff.mpr hleft)

/-- Two numeric types are compared at a numeric type. -/
theorem Numeric.compared {l r : Ty} (hl : Numeric l) (hr : Numeric r) :
    ∃ u, l.promoteComparison r = .ok u ∧ Numeric u := by
  by_cases h : l = r
  · exact ⟨l, Ty.promoteComparison_eq_ok.mpr (.inl ⟨h, rfl⟩), hl⟩
  · have hnumeric : ∃ u, l.promoteNumeric r = .ok u ∧ Numeric u := by
      cases hl <;> cases hr <;> exact ⟨_, rfl, by constructor⟩
    obtain ⟨u, hu, hn⟩ := hnumeric
    exact ⟨u, Ty.promoteComparison_eq_ok.mpr (.inr ⟨h, hu⟩), hn⟩

theorem casts_iff {s t : Ty} : Casts s t ↔ s.casts t = true := by
  simp only [Ty.casts, Bool.or_eq_true, Bool.and_eq_true, beq_iff_eq, ← numericOrChar_iff]
  constructor
  · rintro (_ | _ | _ | _ | ⟨hs, ht⟩)
    · exact .inl (.inl (.inl (.inl rfl)))
    · exact .inl (.inl (.inl (.inr rfl)))
    · exact .inl (.inr rfl)
    · exact .inl (.inl (.inr rfl))
    · exact .inr ⟨hs, ht⟩
  · rintro ((((rfl | rfl) | rfl) | rfl) | ⟨hs, ht⟩)
    · exact .same s
    · exact .toObject s
    · exact .fromObject t
    · exact .toString s
    · exact .numeric hs ht

theorem names_iff {name : String} {t : Ty} : (name, t) ∈ names ↔ Ty.ofName? name = some t := by
  constructor
  · intro h
    simp only [names, List.mem_cons, Prod.mk.injEq, List.not_mem_nil, or_false] at h
    rcases h with ⟨rfl, rfl⟩ | ⟨rfl, rfl⟩ | ⟨rfl, rfl⟩ | ⟨rfl, rfl⟩ | ⟨rfl, rfl⟩ | ⟨rfl, rfl⟩ |
      ⟨rfl, rfl⟩ <;> decide
  · intro h
    have hname : t.name = name := by
      have := List.find?_some h
      simpa using this
    subst hname
    cases t <;> decide

end Typing

/-! ## Operators -/

namespace Code

theorem numericOrBool_of_asNumeric {c d : Code} (h : c.asNumeric = .ok d) :
    ∃ t, c.type = some t ∧ NumericOrBool t := by
  rcases asNumeric_eq_ok.mp h with ⟨t, ht, hn, -⟩ | ⟨ht, -⟩
  · exact ⟨t, ht, .numeric (numeric_iff.mpr hn)⟩
  · exact ⟨.bool, ht, .bool⟩

theorem asNumeric_of_numericOrBool {c : Code} {t : Ty} (hc : c.type = some t)
    (h : NumericOrBool t) : ∃ d, c.asNumeric = .ok d := by
  cases h with
  | numeric hn => exact ⟨c, asNumeric_eq_ok.mpr (.inl ⟨t, hc, numeric_iff.mp hn, rfl⟩)⟩
  | bool => exact ⟨c.truthNumber, asNumeric_eq_ok.mpr (.inr ⟨hc, rfl⟩)⟩

theorem numericOrBool_of_asBoolean {c d : Code} (h : c.asBoolean = .ok d) :
    ∃ t, c.type = some t ∧ d.type = some .bool ∧ NumericOrBool t := by
  rcases asBoolean_eq_ok.mp h with ⟨ht, rfl⟩ | ⟨t, ht, hn, rfl⟩
  · exact ⟨.bool, ht, ht, .bool⟩
  · exact ⟨t, ht, rfl, .numeric (numeric_iff.mpr hn)⟩

theorem asBoolean_of_numericOrBool {c : Code} {t : Ty} (hc : c.type = some t)
    (h : NumericOrBool t) : ∃ d, c.asBoolean = .ok d ∧ d.type = some .bool := by
  cases h with
  | numeric hn =>
      exact ⟨c.nonzero t, asBoolean_eq_ok.mpr (.inr ⟨t, hc, numeric_iff.mp hn, rfl⟩), rfl⟩
  | bool => exact ⟨c, asBoolean_eq_ok.mpr (.inl ⟨hc, rfl⟩), hc⟩

theorem Prepared.turns {c d : Code} {k : Token.Kind} {o : UnaryOp} (h : c.Prepared k o d) :
    ∃ t u, c.type = some t ∧ d.type = some u ∧ Turns k t u := by
  cases h with
  | negate h =>
      rcases asNumeric_eq_ok.mp h with ⟨t, ht, hn, rfl⟩ | ⟨ht, rfl⟩
      · exact ⟨t, t, ht, ht, .negate (numeric_iff.mpr hn)⟩
      · exact ⟨.bool, .int, ht, rfl, .negateBool⟩
  | not h =>
      obtain ⟨t, ht, hd, hb⟩ := numericOrBool_of_asBoolean h
      exact ⟨t, .bool, ht, hd, .not hb⟩
  | complement h =>
      rcases asIntegral_eq_ok.mp h with ⟨t, ht, hi, rfl⟩ | ⟨ht, rfl⟩ | ⟨ht, rfl⟩
      · exact ⟨t, t, ht, ht, .complement (whole_iff.mpr hi)⟩
      · exact ⟨.double, .int, ht, convertTo_type c .int, .complementDouble⟩
      · exact ⟨.bool, .int, ht, rfl, .complementBool⟩

theorem prepared_of_turns {c : Code} {k : Token.Kind} {t u : Ty} (hc : c.type = some t)
    (h : Turns k t u) : ∃ o d, c.Prepared k o d ∧ d.type = some u := by
  cases h with
  | negate hn =>
      exact ⟨_, c, .negate (asNumeric_eq_ok.mpr (.inl ⟨t, hc, numeric_iff.mp hn, rfl⟩)), hc⟩
  | negateBool => exact ⟨_, _, .negate (asNumeric_eq_ok.mpr (.inr ⟨hc, rfl⟩)), rfl⟩
  | not hb =>
      obtain ⟨d, hd, hbool⟩ := asBoolean_of_numericOrBool hc hb
      exact ⟨_, d, .not hd, hbool⟩
  | complement hw =>
      exact ⟨_, c, .complement (asIntegral_eq_ok.mpr (.inl ⟨t, hc, whole_iff.mp hw, rfl⟩)), hc⟩
  | complementDouble =>
      exact ⟨_, _, .complement (asIntegral_eq_ok.mpr (.inr (.inl ⟨hc, rfl⟩))),
        convertTo_type c .int⟩
  | complementBool =>
      exact ⟨_, _, .complement (asIntegral_eq_ok.mpr (.inr (.inr ⟨hc, rfl⟩))), rfl⟩

end Code

namespace BinaryOp

/-- The family of an operator. -/
def family : BinaryOp → Family
  | .arithmetic _ => .arithmetic
  | .bitwise _ => .bitwise
  | .comparison o => if o.isRelational then .order else .equality

theorem mem_operators {k : Token.Kind} {o : BinaryOp} (h : ofKind? k = some o) :
    k ∈ o.family.operators := by
  unfold ofKind? at h
  split at h <;> first | (cases h; decide) | cases h

theorem exists_ofKind {k : Token.Kind} {f : Family} (h : k ∈ f.operators) :
    ∃ o, ofKind? k = some o ∧ o.family = f := by
  revert k
  cases f <;> decide

/-- The operands of an operator are brought to one type exactly where its family
takes them. -/
theorem promote_iff_takes {o : BinaryOp} {l r t : Ty} :
    (∃ u, o.promote l r = .ok u ∧ (o.isRelational = true → u.isScalar = true) ∧
      o.resultType u = t) ↔ o.family.Takes l r t := by
  cases o with
  | arithmetic a =>
      constructor
      · rintro ⟨u, hu, -, rfl⟩
        obtain ⟨hl, hr, -⟩ := Ty.promoteNumeric_eq_ok.mp hu
        rw [← numeric_iff] at hl hr
        exact .arithmetic hl hr ((wider_iff hl hr).mpr hu)
      · rintro (⟨hl, hr, hw⟩)
        exact ⟨t, (wider_iff hl hr).mp hw, nofun, rfl⟩
  | bitwise b =>
      constructor
      · rintro ⟨u, hu, -, rfl⟩
        obtain ⟨hl, hr, hu⟩ := Ty.promoteIntegral_eq_ok.mp hu
        rw [← whole_iff] at hl hr
        exact .bitwise hl hr ((wider_iff hl.numeric hr.numeric).mpr hu)
      · rintro (_ | ⟨hl, hr, hw⟩)
        have hu := (wider_iff hl.numeric hr.numeric).mp hw
        exact ⟨t, Ty.promoteIntegral_eq_ok.mpr ⟨whole_iff.mp hl, whole_iff.mp hr, hu⟩, nofun, rfl⟩
  | comparison c =>
      cases hc : c.isRelational with
      | false =>
          have hfamily : family (.comparison c) = .equality := by rw [family, hc]; rfl
          rw [hfamily, show isRelational (.comparison c) = false from hc]
          constructor
          · rintro ⟨u, hu, -, rfl⟩
            rcases Ty.promoteComparison_eq_ok.mp hu with ⟨rfl, -⟩ | ⟨-, hu⟩
            · exact .same l
            · obtain ⟨hl, hr, -⟩ := Ty.promoteNumeric_eq_ok.mp hu
              exact .numbersEqual (numeric_iff.mpr hl) (numeric_iff.mpr hr)
          · intro h
            cases h with
            | same => exact ⟨l, Ty.promoteComparison_eq_ok.mpr (.inl ⟨rfl, rfl⟩), nofun, rfl⟩
            | numbersEqual hl hr =>
                obtain ⟨u, hu, -⟩ := hl.compared hr
                exact ⟨u, hu, nofun, rfl⟩
      | true =>
          have hfamily : family (.comparison c) = .order := by rw [family, hc]; rfl
          rw [hfamily, show isRelational (.comparison c) = true from hc]
          constructor
          · rintro ⟨u, hu, hscalar, rfl⟩
            rcases Ty.promoteComparison_eq_ok.mp hu with ⟨rfl, rfl⟩ | ⟨-, hu⟩
            · cases numericOrChar_iff.mpr (hscalar rfl) with
              | numeric h => exact .numbersOrder h h
              | char => exact .chars
            · obtain ⟨hl, hr, -⟩ := Ty.promoteNumeric_eq_ok.mp hu
              exact .numbersOrder (numeric_iff.mpr hl) (numeric_iff.mpr hr)
          · intro h
            cases h with
            | numbersOrder hl hr =>
                obtain ⟨u, hu, hn⟩ := hl.compared hr
                exact ⟨u, hu, fun _ => numericOrChar_iff.mp (.numeric hn), rfl⟩
            | chars => exact ⟨.char, rfl, fun _ => rfl, rfl⟩

end BinaryOp

namespace Code

theorem joins_of_combine {a b c : Code} {op : Token} (h : a.combine op b = .ok c) :
    ∃ l r t, a.type = some l ∧ b.type = some r ∧ c.type = some t ∧ Joins op.kind l r t := by
  obtain ⟨l, r, hl, hr, h⟩ := combine_eq_ok.mp h
  cases h with
  | integralPower t hk ht =>
      obtain ⟨hwl, hwr, hw⟩ := Ty.promoteIntegral_eq_ok.mp ht
      rw [← whole_iff] at hwl hwr
      rw [hk]
      exact ⟨l, r, t, hl, hr, rfl,
        .wholePower hwl hwr ((wider_iff hwl.numeric hwr.numeric).mpr hw)⟩
  | doublePower d e hk hi hd he =>
      obtain ⟨l', hl', hnl⟩ := numericOrBool_of_asNumeric hd
      obtain ⟨r', hr', hnr⟩ := numericOrBool_of_asNumeric he
      obtain rfl := Option.some.inj (hl.symm.trans hl')
      obtain rfl := Option.some.inj (hr.symm.trans hr')
      have hnot : ¬(Whole l ∧ Whole r) := by
        rw [whole_iff, whole_iff, ← Bool.and_eq_true, hi]
        decide
      rw [hk]
      exact ⟨l, r, .double, hl, hr, rfl, .power hnl hnr hnot⟩
  | concat hk hs =>
      rw [hk]
      exact ⟨l, r, .string, hl, hr, rfl, .concat hs⟩
  | operator o u _ ho hu hrel =>
      have htakes := BinaryOp.promote_iff_takes.mp ⟨u, hu, hrel, rfl⟩
      exact ⟨l, r, o.resultType u, hl, hr, rfl, .operator (BinaryOp.mem_operators ho) htakes⟩

theorem combine_of_joins {a b : Code} {op : Token} {l r t : Ty} (ha : a.type = some l)
    (hb : b.type = some r) (h : Joins op.kind l r t) :
    ∃ c, a.combine op b = .ok c ∧ c.type = some t := by
  simp only [combine_eq_ok]
  generalize hk : op.kind = k at h
  cases h with
  | wholePower hwl hwr hw =>
      have ht := Ty.promoteIntegral_eq_ok.mpr
        ⟨whole_iff.mp hwl, whole_iff.mp hwr, (wider_iff hwl.numeric hwr.numeric).mp hw⟩
      exact ⟨_, ⟨l, r, ha, hb, .integralPower t hk ht⟩, rfl⟩
  | power hnl hnr hnot =>
      obtain ⟨d, hd⟩ := asNumeric_of_numericOrBool ha hnl
      obtain ⟨e, he⟩ := asNumeric_of_numericOrBool hb hnr
      have hi : (l.isIntegral && r.isIntegral) = false := by
        rw [whole_iff, whole_iff, ← Bool.and_eq_true] at hnot
        exact Bool.eq_false_iff.mpr hnot
      exact ⟨_, ⟨l, r, ha, hb, .doublePower d e hk hi hd he⟩, rfl⟩
  | concat hs => exact ⟨_, ⟨l, r, ha, hb, .concat hk hs⟩, rfl⟩
  | operator hmem htakes =>
      obtain ⟨o, ho, rfl⟩ := BinaryOp.exists_ofKind hmem
      obtain ⟨u, hu, hrel, rfl⟩ := BinaryOp.promote_iff_takes.mpr htakes
      refine ⟨_, ⟨l, r, ha, hb, .operator o u ?_ (hk ▸ ho) hu hrel⟩, rfl⟩
      -- A plus between strings is of no family that takes them.
      rintro ⟨hplus, hs⟩
      rw [← hk, hplus] at ho
      obtain rfl := Option.some.inj ho
      cases htakes with
      | arithmetic hnl hnr _ =>
          rcases hs with hs | hs
          · exact hnl.ne_string hs
          · exact hnr.ne_string hs

theorem casts_of_castTo {c d : Code} {name : String} {line : Nat}
    (h : c.castTo name line = .ok d) :
    ∃ t u, c.type = some t ∧ d.type = some u ∧ (name, u) ∈ names ∧ Casts t u := by
  obtain ⟨t, u, hname, hc, hcasts, rfl⟩ := castTo_eq_ok.mp h
  refine ⟨t, u, hc, ?_, names_iff.mpr hname, casts_iff.mpr hcasts⟩
  split
  · rename_i heq
    rw [hc, heq]
  · rfl

theorem castTo_of_casts {c : Code} {name : String} {t u : Ty} (line : Nat) (hc : c.type = some t)
    (hname : (name, u) ∈ names) (h : Casts t u) :
    ∃ d, c.castTo name line = .ok d ∧ d.type = some u := by
  refine ⟨if t = u then c else .convert c ⟨some u, line⟩, castTo_eq_ok.mpr ?_, ?_⟩
  · exact ⟨t, u, names_iff.mp hname, hc, casts_iff.mp h, rfl⟩
  · split
    · rename_i heq
      rw [hc, heq]
    · rfl

end Code

/-! ## Environments -/

/-- The names and types of the variables declared in a block. -/
def Frame.types (f : Frame) : List (String × Ty) := f.map fun slot => (slot.name, slot.type)

/-- The names and types of the variables in force. -/
def Scope.env (s : Scope) : Env := s.frames.map Frame.types

theorem Frame.lookup_types (f : Frame) (name : String) :
    f.types.lookup name = (f.lookup name).map Slot.type := by
  unfold types lookup
  induction f with
  | nil => rfl
  | cons slot f ih =>
      rw [List.map_cons, List.lookup_cons, List.find?_cons, BEq.comm]
      cases slot.name == name with
      | true => rfl
      | false => exact ih

namespace Scope

variable {s : Scope} {name : String} {t : Ty}

theorem binds_frames {frames : List Frame} :
    Binds (frames.map Frame.types) name t ↔
      ∃ slot, frames.findSome? (·.lookup name) = some slot ∧ slot.type = t := by
  induction frames with
  | nil =>
      constructor
      · rintro ⟨⟩
      · rintro ⟨slot, h, -⟩
        exact absurd h (by simp)
  | cons f frames ih =>
      rw [List.map_cons, List.findSome?_cons]
      cases hf : f.lookup name with
      | some slot =>
          have htypes : f.types.lookup name = some slot.type := by rw [f.lookup_types, hf]; rfl
          constructor
          · rintro (h | ⟨h, -⟩)
            · exact ⟨slot, rfl, Option.some.inj (htypes.symm.trans h)⟩
            · rw [htypes] at h
              cases h
          · rintro ⟨_, ⟨⟩, rfl⟩
            exact .here htypes
      | none =>
          have htypes : f.types.lookup name = none := by rw [f.lookup_types, hf]; rfl
          rw [← ih]
          constructor
          · rintro (h | ⟨-, h⟩)
            · rw [htypes] at h
              cases h
            · exact h
          · exact fun h => .outer htypes h

/-- A name means the variable that its innermost binding declares. -/
theorem binds_iff : Binds s.env name t ↔ ∃ slot, s.resolve name = .ok slot ∧ slot.type = t := by
  simp only [resolve_eq_ok]
  exact binds_frames

theorem env_push : s.push.env = [] :: s.env := rfl

theorem env_grow (s : Scope) :
    ∃ outer, s.env = s.current.types :: outer ∧
      ∀ slot, (s.grow [slot]).env = (s.current.types ++ [(slot.name, slot.type)]) :: outer := by
  obtain ⟨outer, hframes, hgrow⟩ := s.frames_grow
  refine ⟨outer.map Frame.types, by rw [env, hframes, List.map_cons], fun slot => ?_⟩
  rw [env, hgrow, List.map_cons, Frame.types, List.map_append]
  rfl

end Scope

/-! ## Expressions -/

theorem Literal.hasType (env : Env) (v : Literal) : (Expr.literal v).HasType env v.type := by
  cases v with
  | int n => exact .int n
  | long n => exact .long n
  | double x => exact .double x
  | bool b => exact .bool b
  | string s => exact .string s
  | char c => exact .char c
  | null => exact .null

theorem Lowering.stepValue_iff {t : Ty} : (∃ one, stepValue? t = some one) ↔ Numeric t := by
  constructor
  · rintro ⟨one, h⟩
    cases t with
    | int => exact .int
    | long => exact .long
    | double => exact .double
    | _ => cases h
  · rintro (_ | _ | _) <;> exact ⟨_, rfl⟩

/-- What is lowered is well typed, and the code has the type. -/
theorem Expr.Lowers.hasType {e : Expr} {s s' : Lowering} {c : Code} (h : e.Lowers s c s') :
    ∃ t, c.type = some t ∧ e.HasType s.scope.env t := by
  induction h with
  | literal v s => exact ⟨v.type, rfl, v.hasType _⟩
  | grouping _ ih =>
      obtain ⟨t, hc, ih⟩ := ih
      exact ⟨t, hc, .grouping ih⟩
  | @var name s slot hr => exact ⟨slot.type, rfl, .var (Scope.binds_iff.mpr ⟨slot, hr, rfl⟩)⟩
  | @assign target e s s' slot c d hr _ hd ih =>
      obtain ⟨u, hc, ih⟩ := ih
      obtain ⟨u', hc', hw, -⟩ := Code.asStored_eq_ok.mp hd
      obtain rfl := Option.some.inj (hc.symm.trans hc')
      exact ⟨slot.type, rfl,
        .assign (Scope.binds_iff.mpr ⟨slot, hr, rfl⟩) ih (widens_iff.mpr hw)⟩
  | unary _ hp ih =>
      obtain ⟨t, hc, ih⟩ := ih
      obtain ⟨t', u, hc', hd, hturns⟩ := hp.turns
      obtain rfl := Option.some.inj (hc.symm.trans hc')
      exact ⟨u, hd, .unary ih hturns⟩
  | binary hleft _ hc ihLeft ihRight =>
      obtain ⟨l, ha, ihLeft⟩ := ihLeft
      obtain ⟨r, hb, ihRight⟩ := ihRight
      rw [hleft.scope_eq] at ihRight
      obtain ⟨l', r', t, ha', hb', hc, hjoins⟩ := Code.joins_of_combine hc
      obtain rfl := Option.some.inj (ha.symm.trans ha')
      obtain rfl := Option.some.inj (hb.symm.trans hb')
      exact ⟨t, hc, .binary ihLeft ihRight hjoins⟩
  | logical hleft hl _ hr ihLeft ihRight =>
      obtain ⟨l, ha, ihLeft⟩ := ihLeft
      obtain ⟨r, hb, ihRight⟩ := ihRight
      rw [hleft.scope_eq] at ihRight
      obtain ⟨l', ha', -, hnl⟩ := Code.numericOrBool_of_asBoolean hl
      obtain ⟨r', hb', -, hnr⟩ := Code.numericOrBool_of_asBoolean hr
      obtain rfl := Option.some.inj (ha.symm.trans ha')
      obtain rfl := Option.some.inj (hb.symm.trans hb')
      exact ⟨.bool, rfl, .logical ihLeft hnl ihRight hnr⟩
  | cast _ hd ih =>
      obtain ⟨t, hc, ih⟩ := ih
      obtain ⟨t', u, hc', hd, hname, hcasts⟩ := Code.casts_of_castTo hd
      obtain rfl := Option.some.inj (hc.symm.trans hc')
      exact ⟨u, hd, .cast hname ih hcasts⟩
  | @stepBefore op target s slot one hr hone | @stepBehind op target s slot one hr hone =>
      have hn := Lowering.stepValue_iff.mp ⟨one, hone⟩
      exact ⟨slot.type, rfl, .step (Scope.binds_iff.mpr ⟨slot, hr, rfl⟩) hn⟩

/-- What is well typed is lowered, in every state with these variables in force. -/
theorem Expr.HasType.lowers {env : Env} {e : Expr} {t : Ty} (h : e.HasType env t) :
    ∀ s : Lowering, s.scope.env = env → ∃ c s', e.Lowers s c s' ∧ c.type = some t := by
  induction h with
  | int | long | double | bool | string | char | null =>
      exact fun s _ => ⟨_, s, .literal _ s, rfl⟩
  | grouping _ ih =>
      intro s hs
      obtain ⟨c, s', hlowers, hc⟩ := ih s hs
      exact ⟨c, s', .grouping hlowers, hc⟩
  | var hbinds =>
      rintro s rfl
      obtain ⟨slot, hr, rfl⟩ := Scope.binds_iff.mp hbinds
      exact ⟨_, _, .var hr, rfl⟩
  | @assign target e t u hbinds _ hw ih =>
      rintro s rfl
      obtain ⟨slot, hr, rfl⟩ := Scope.binds_iff.mp hbinds
      obtain ⟨c, s', hlowers, hc⟩ := ih (s.atLine target.line) rfl
      have hd := Code.asStored_eq_ok.mpr ⟨u, hc, widens_iff.mp hw, rfl⟩
      exact ⟨_, s', .assign hr hlowers hd, rfl⟩
  | @unary op e t u _ hturns ih =>
      rintro s rfl
      obtain ⟨c, s', hlowers, hc⟩ := ih (s.atLine op.line) rfl
      obtain ⟨o, d, hp, hd⟩ := Code.prepared_of_turns hc hturns
      exact ⟨_, s', .unary hlowers hp, hd⟩
  | @binary left right op l r t _ _ hjoins ihLeft ihRight =>
      rintro s rfl
      obtain ⟨a, mid, hleft, ha⟩ := ihLeft (s.atLine op.line) rfl
      obtain ⟨b, s', hright, hb⟩ := ihRight mid (by rw [hleft.scope_eq]; rfl)
      obtain ⟨c, hcombine, hc⟩ := Code.combine_of_joins ha hb hjoins
      exact ⟨c, s', .binary hleft hright hcombine, hc⟩
  | @logical left right op l r _ hnl _ hnr ihLeft ihRight =>
      rintro s rfl
      obtain ⟨a, mid, hleft, ha⟩ := ihLeft (s.atLine op.line) rfl
      obtain ⟨b, s', hright, hb⟩ := ihRight mid (by rw [hleft.scope_eq]; rfl)
      obtain ⟨d, hd, -⟩ := Code.asBoolean_of_numericOrBool ha hnl
      obtain ⟨d', hd', -⟩ := Code.asBoolean_of_numericOrBool hb hnr
      exact ⟨_, s', .logical hleft hd hright hd', rfl⟩
  | @cast target e t u hname _ hcasts ih =>
      rintro s rfl
      obtain ⟨c, s', hlowers, hc⟩ := ih (s.atLine target.line) rfl
      obtain ⟨d, hd, htype⟩ := Code.castTo_of_casts target.line hc hname hcasts
      exact ⟨d, s', .cast hlowers hd, htype⟩
  | @step op target isPrefix t hbinds hn =>
      rintro s rfl
      obtain ⟨slot, hr, rfl⟩ := Scope.binds_iff.mp hbinds
      obtain ⟨one, hone⟩ := Lowering.stepValue_iff.mpr hn
      cases isPrefix with
      | true => exact ⟨_, _, .stepBefore hr hone, rfl⟩
      | false => exact ⟨_, _, .stepBehind hr hone, rfl⟩

/-! ## Statements -/

/-- The environment behind a declaration. -/
theorem Lowering.env_declared (s : Lowering) (name : Token) (type : Ty) :
    ∃ outer, s.scope.env = s.scope.current.types :: outer ∧
      (s.declared name type).scope.env =
        (s.scope.current.types ++ [(name.lexeme, type)]) :: outer := by
  obtain ⟨outer, henv, hgrow⟩ := s.scope.env_grow
  exact ⟨outer, henv, hgrow _⟩

theorem Frame.lookup_types_eq_none {f : Frame} {name : String} :
    f.types.lookup name = none ↔ f.lookup name = none := by
  rw [f.lookup_types, Option.map_eq_none_iff]

mutual

theorem Stmt.Lowers.types {stmt : Stmt} {s s' : Lowering} {c : Code} :
    stmt.Lowers s c s' → stmt.Types s.scope.env c.type s'.scope.env
  | .expression h => by
      obtain ⟨t, hc, htype⟩ := h.hasType
      rw [hc, h.scope_eq]
      exact .expression htype
  | .print h => by
      obtain ⟨t, -, htype⟩ := h.hasType
      rw [h.scope_eq]
      exact .print htype
  | @Stmt.Lowers.declare type name _ hn => by
      obtain ⟨outer, henv, hdeclared⟩ := s.env_declared name type
      rw [henv, hdeclared]
      exact .declare (Frame.lookup_types_eq_none.mpr hn)
  | @Stmt.Lowers.declareInit type name _ _ _ _ _ hn h hd => by
      obtain ⟨outer, henv, hdeclared⟩ := s.env_declared name type
      obtain ⟨t, hc, htype⟩ := h.hasType
      obtain ⟨t', hc', hw, -⟩ := Code.asStored_eq_ok.mp hd
      obtain rfl := Option.some.inj (hc.symm.trans hc')
      rw [hdeclared] at htype
      rw [henv, h.scope_eq, hdeclared]
      exact .declareInit (Frame.lookup_types_eq_none.mpr hn) htype (widens_iff.mpr hw)
  | .block h _ => .block h.typesAll

theorem Stmt.LowersAll.typesAll {stmts : List Stmt} {s s' : Lowering} {codes : List Code} :
    Stmt.LowersAll stmts s codes s' →
      Stmt.TypesAll s.scope.env stmts (codes.getLast?.bind Code.type) s'.scope.env
  | .nil s => .nil
  | .cons h (.nil _) => .last h.types
  | .cons h (.cons h' hs) => by
      have hrest := Stmt.LowersAll.typesAll (.cons h' hs)
      rw [List.getLast?_cons_cons]
      exact .cons h.types hrest

end

mutual

theorem Stmt.Types.lowers {env after : Env} {stmt : Stmt} {t : Option Ty} :
    stmt.Types env t after → ∀ s : Lowering, s.scope.env = env →
      ∃ c s', stmt.Lowers s c s' ∧ c.type = t ∧ s'.scope.env = after
  | .expression h, s, hs => by
      obtain ⟨c, s', hlowers, hc⟩ := h.lowers s hs
      exact ⟨c, s', .expression hlowers, hc, by rw [hlowers.scope_eq, hs]⟩
  | .print h, s, hs => by
      obtain ⟨c, s', hlowers, -⟩ := h.lowers s hs
      exact ⟨_, s', .print hlowers, rfl, by rw [hlowers.scope_eq, hs]⟩
  | @Stmt.Types.declare _ _ type name hn, s, hs => by
      obtain ⟨outer, henv, hdeclared⟩ := s.env_declared name type
      obtain ⟨rfl, rfl⟩ := List.cons.inj (henv.symm.trans hs)
      exact ⟨_, _, .declare (Frame.lookup_types_eq_none.mp hn), rfl, hdeclared⟩
  | @Stmt.Types.declareInit _ _ type t name _ hn h hw, s, hs => by
      obtain ⟨outer, henv, hdeclared⟩ := s.env_declared name type
      obtain ⟨rfl, rfl⟩ := List.cons.inj (henv.symm.trans hs)
      obtain ⟨c, s', hlowers, hc⟩ := h.lowers (s.declared name type) hdeclared
      have hd : c.asStored (s.fresh name.lexeme type) = .ok (c.convertTo type) :=
        Code.asStored_eq_ok.mpr ⟨t, hc, widens_iff.mp hw, rfl⟩
      refine ⟨_, s', .declareInit (Frame.lookup_types_eq_none.mp hn) hlowers hd, rfl, ?_⟩
      rw [hlowers.scope_eq, hdeclared]
  | .block h, s, hs => by
      obtain ⟨codes, s', hlowers, htype, -⟩ :=
        h.lowersAll { s with scope := s.scope.push } (by rw [Scope.env_push, hs])
      obtain ⟨added, hadded⟩ := hlowers.scope_grow
      exact ⟨_, _, .block hlowers hadded, htype, hs⟩

theorem Stmt.TypesAll.lowersAll {env after : Env} {stmts : List Stmt} {t : Option Ty} :
    Stmt.TypesAll env stmts t after → ∀ s : Lowering, s.scope.env = env →
      ∃ codes s', Stmt.LowersAll stmts s codes s' ∧ codes.getLast?.bind Code.type = t ∧
        s'.scope.env = after
  | .nil, s, hs => ⟨[], s, .nil s, rfl, hs⟩
  | .last h, s, hs => by
      obtain ⟨c, s', hlowers, hc, henv⟩ := h.lowers s hs
      exact ⟨[c], s', .cons hlowers (.nil s'), hc, henv⟩
  | .cons h hrest, s, hs => by
      obtain ⟨c, mid, hlowers, -, hmid⟩ := h.lowers s hs
      obtain ⟨_, s', hall, htype, henv⟩ := hrest.lowersAll mid hmid
      cases hall with
      | cons hnext hothers =>
          refine ⟨_, s', .cons hlowers (.cons hnext hothers), ?_, henv⟩
          rw [List.getLast?_cons_cons, htype]

end

/-! ## Programs -/

/-- In every state, an expression is lowered exactly where it has a type, and its code
notes that type; a statement exactly where it is well typed, with the variables behind
it that the rules give.  A program is lowered exactly where it is well typed, and its
root notes the type of its last statement. -/
theorem lower_decides_types :
    (∀ (e : Expr) (s : Lowering) (t : Option Ty),
      (∃ c s', e.lower.run s = (.ok c, s') ∧ c.type = t) ↔
        ∃ u, t = some u ∧ e.HasType s.scope.env u) ∧
    (∀ (stmt : Stmt) (s : Lowering) (t : Option Ty) (after : Env),
      (∃ c s', stmt.lower.run s = (.ok c, s') ∧ c.type = t ∧ s'.scope.env = after) ↔
        stmt.Types s.scope.env t after) ∧
    ∀ (program : List Stmt) (t : Option Ty),
      (∃ p, lower program = .ok p ∧ p.root.type = t) ↔ Program.HasType program t := by
  refine ⟨fun e s t => ?_, fun stmt s t after => ?_, fun program t => ?_⟩
  · simp only [Expr.lower_eq_ok]
    constructor
    · rintro ⟨c, s', hlowers, rfl⟩
      exact hlowers.hasType
    · rintro ⟨u, rfl, htype⟩
      exact htype.lowers s rfl
  · simp only [Stmt.lower_eq_ok]
    constructor
    · rintro ⟨c, s', hlowers, rfl, rfl⟩
      exact hlowers.types
    · intro htypes
      exact htypes.lowers s rfl
  · simp only [lower_eq_ok_iff]
    constructor
    · rintro ⟨_, ⟨codes, s', added, hlowers, -, rfl⟩, rfl⟩
      exact ⟨_, hlowers.typesAll⟩
    · rintro ⟨after, htypes⟩
      obtain ⟨codes, s', hlowers, htype, -⟩ := htypes.lowersAll .start rfl
      obtain ⟨added, hadded⟩ := hlowers.scope_grow
      exact ⟨_, ⟨codes, s', added, hlowers, hadded, rfl⟩, htype⟩

end SlotScript
