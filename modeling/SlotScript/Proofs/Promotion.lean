import SlotScript.Code.Promotion
import SlotScript.Proofs.Attempts

/-! # When promotion succeeds

Every function that prepares an operand or joins two of them is described by an
equivalence: it succeeds exactly on operands of certain types, and then its
answer is a certain tree.  The joining of two operands by an operator has four
forms, listed in `Code.Combined`.  Later proofs use these equivalences and never
look into the functions. -/

namespace SlotScript

open Outcome

namespace Ty

theorem isNumeric_iff {t : Ty} : t.isNumeric = true ↔ t = .int ∨ t = .long ∨ t = .double := by
  cases t <;> decide

theorem isIntegral_iff {t : Ty} : t.isIntegral = true ↔ t = .int ∨ t = .long := by
  cases t <;> decide

theorem isScalar_iff {t : Ty} :
    t.isScalar = true ↔ t = .int ∨ t = .long ∨ t = .double ∨ t = .char := by
  cases t <;> decide

/-- Two numeric types are promoted to the one of them that both widen to. -/
theorem promoteNumeric_eq_ok {l r t : Ty} :
    l.promoteNumeric r = .ok t ↔
      l.isNumeric ∧ r.isNumeric ∧ (t = l ∨ t = r) ∧ l.widens t ∧ r.widens t := by
  cases l <;> cases r <;>
    simp only [promoteNumeric, rank, isNumeric, Option.isSome, Except.ok.injEq, reduceCtorEq,
      Bool.false_eq_true, true_and, false_and, and_false] <;>
    cases t <;> decide

theorem promoteIntegral_eq_ok {l r t : Ty} :
    l.promoteIntegral r = .ok t ↔ l.isIntegral ∧ r.isIntegral ∧ l.promoteNumeric r = .ok t := by
  unfold promoteIntegral
  split
  · simp_all
  · simp_all

theorem promoteComparison_eq_ok {l r t : Ty} :
    l.promoteComparison r = .ok t ↔
      (l = r ∧ t = l) ∨ (l ≠ r ∧ l.promoteNumeric r = .ok t) := by
  unfold promoteComparison
  by_cases h : l = r
  · simp [h, eq_comm]
  · cases hp : l.promoteNumeric r with
    | ok u => simp [h]
    | error e => simp [h]

end Ty

namespace Code

@[simp] theorem ofValue_type (v : Value) (t : Ty) (line : Nat) :
    (ofValue v t line).type = some t := rfl

@[simp] theorem loadFrom_type (slot : Slot) (line : Nat) :
    (loadFrom slot line).type = some slot.type := rfl

@[simp] theorem storeTo_type (slot : Slot) (c : Code) (line : Nat) :
    (storeTo slot c line).type = some slot.type := rfl

@[simp] theorem truthNumber_type (c : Code) : c.truthNumber.type = some .int := rfl

@[simp] theorem ofBlock_type (slots : List Slot) (body : List Code) (line : Nat) :
    (ofBlock slots body line).type = body.getLast?.bind Code.type := rfl

/-- The type of the last part of a sequence, or `type` if it has none. -/
def lastType (type : Option Ty) (body : List Code) : Option Ty :=
  (body.getLast?.map Code.type).getD type

theorem lastType_cons (type : Option Ty) (c : Code) (body : List Code) :
    lastType type (c :: body) = lastType c.type body := by
  unfold lastType
  rw [List.getLast?_cons]
  cases body.getLast? with
  | none => rfl
  | some d => rfl

theorem lastType_none (body : List Code) : lastType none body = body.getLast?.bind Code.type := by
  unfold lastType
  cases body.getLast? with
  | none => rfl
  | some d => rfl

@[simp] theorem convertTo_type (c : Code) (t : Ty) : (c.convertTo t).type = some t := by
  unfold convertTo
  split
  · assumption
  · rfl

theorem convertTo_of_type {c : Code} {t : Ty} (h : c.type = some t) : c.convertTo t = c := by
  unfold convertTo
  rw [if_pos h]

theorem convertTo_of_ne {c : Code} {t : Ty} (h : c.type ≠ some t) :
    c.convertTo t = .convert c ⟨some t, c.line⟩ := by
  unfold convertTo
  rw [if_neg h]

theorem valueType_eq_ok {c : Code} {t : Ty} : c.valueType = .ok t ↔ c.type = some t := by
  unfold valueType
  cases c.type with
  | none => simp
  | some u => simp

/-! ### Operands -/

/-- The test that a number is not zero. -/
def nonzero (c : Code) (t : Ty) : Code :=
  .binary (.comparison .notEqual) c (ofValue (.default t) t c.line) ⟨some .bool, c.line⟩

theorem asNumeric_eq_ok {c d : Code} :
    c.asNumeric = .ok d ↔
      (∃ t, c.type = some t ∧ t.isNumeric ∧ d = c) ∨ (c.type = some .bool ∧ d = c.truthNumber) := by
  simp only [asNumeric, bind_eq_ok, valueType_eq_ok]
  constructor
  · rintro ⟨t, ht, h⟩
    split at h
    · exact .inl ⟨t, ht, ‹_›, (pure_eq_ok.mp h).symm⟩
    · split at h
      · rename_i hb
        subst hb
        exact .inr ⟨ht, (pure_eq_ok.mp h).symm⟩
      · exact absurd h throw_ne_ok
  · rintro (⟨t, ht, hn, rfl⟩ | ⟨ht, rfl⟩)
    · exact ⟨t, ht, by rw [if_pos hn]; rfl⟩
    · exact ⟨.bool, ht, rfl⟩

theorem asIntegral_eq_ok {c d : Code} :
    c.asIntegral = .ok d ↔
      (∃ t, c.type = some t ∧ t.isIntegral ∧ d = c) ∨
        (c.type = some .double ∧ d = c.convertTo .int) ∨
        (c.type = some .bool ∧ d = c.truthNumber) := by
  simp only [asIntegral, bind_eq_ok, valueType_eq_ok]
  constructor
  · rintro ⟨t, ht, h⟩
    cases t <;> simp only [Ty.isIntegral, reduceCtorEq, beq_iff_eq, Bool.or_eq_true, or_self,
      or_false, or_true, if_true, if_false] at h
    case int => exact .inl ⟨_, ht, rfl, (pure_eq_ok.mp h).symm⟩
    case long => exact .inl ⟨_, ht, rfl, (pure_eq_ok.mp h).symm⟩
    case double => exact .inr (.inl ⟨ht, (pure_eq_ok.mp h).symm⟩)
    case bool => exact .inr (.inr ⟨ht, (pure_eq_ok.mp h).symm⟩)
  · rintro (⟨t, ht, hn, rfl⟩ | ⟨ht, rfl⟩ | ⟨ht, rfl⟩)
    · exact ⟨t, ht, by rw [if_pos hn]; rfl⟩
    · exact ⟨.double, ht, rfl⟩
    · exact ⟨.bool, ht, rfl⟩

theorem asBoolean_eq_ok {c d : Code} :
    c.asBoolean = .ok d ↔
      (c.type = some .bool ∧ d = c) ∨ (∃ t, c.type = some t ∧ t.isNumeric ∧ d = c.nonzero t) := by
  simp only [asBoolean, bind_eq_ok, valueType_eq_ok]
  constructor
  · rintro ⟨t, ht, h⟩
    split at h
    · rename_i hb
      subst hb
      exact .inl ⟨ht, (pure_eq_ok.mp h).symm⟩
    · split at h
      · exact .inr ⟨t, ht, ‹_›, (pure_eq_ok.mp h).symm⟩
      · exact absurd h throw_ne_ok
  · rintro (⟨ht, rfl⟩ | ⟨t, ht, hn, rfl⟩)
    · exact ⟨.bool, ht, rfl⟩
    · refine ⟨t, ht, ?_⟩
      have hb : t ≠ .bool := by
        rintro rfl
        exact absurd hn (by decide)
      rw [if_neg hb, if_pos hn]
      rfl

theorem asStored_eq_ok {c d : Code} {slot : Slot} :
    c.asStored slot = .ok d ↔
      ∃ t, c.type = some t ∧ t.widens slot.type ∧ d = c.convertTo slot.type := by
  simp only [asStored, bind_eq_ok, valueType_eq_ok]
  constructor
  · rintro ⟨t, ht, h⟩
    split at h
    · exact ⟨t, ht, ‹_›, (pure_eq_ok.mp h).symm⟩
    · exact absurd h throw_ne_ok
  · rintro ⟨t, ht, hw, rfl⟩
    exact ⟨t, ht, by rw [if_pos hw]; rfl⟩

/-! ### Operators on two operands -/

/-- The trees that an operator token makes of two operands with types `l` and
`r`. -/
inductive Combined (left : Code) (l : Ty) (op : Token) (right : Code) (r : Ty) : Code → Prop
  | integralPower (t : Ty) : op.kind = .power → l.promoteIntegral r = .ok t →
      Combined left l op right r
        (.call (if t = .int then .intPower else .longPower) [left.convertTo t, right.convertTo t]
          ⟨some t, op.line⟩)
  | doublePower (a b : Code) : op.kind = .power → (l.isIntegral && r.isIntegral) = false →
      left.asNumeric = .ok a → right.asNumeric = .ok b →
      Combined left l op right r
        (.call .doublePower [a.convertTo .double, b.convertTo .double] ⟨some .double, op.line⟩)
  | concat : op.kind = .plus → (l = .string ∨ r = .string) →
      Combined left l op right r (.call .concat [left, right] ⟨some .string, op.line⟩)
  | operator (o : BinaryOp) (t : Ty) : ¬ (op.kind = .plus ∧ (l = .string ∨ r = .string)) →
      BinaryOp.ofKind? op.kind = some o → o.promote l r = .ok t →
      (o.isRelational = true → t.isScalar = true) →
      Combined left l op right r
        (.binary o (left.convertTo t) (right.convertTo t) ⟨some (o.resultType t), op.line⟩)

theorem raise_eq_ok {left right c : Code} {l r : Ty} {op : Token} (hop : op.kind = .power)
    (hl : left.type = some l) (hr : right.type = some r) :
    left.raise right op.line = .ok c ↔ Combined left l op right r c := by
  simp only [raise, bind_eq_ok, valueType_eq_ok, hl, hr, Option.some.injEq, exists_eq_left']
  constructor
  · intro h
    cases hi : l.isIntegral && r.isIntegral with
    | true =>
        rw [if_pos hi] at h
        obtain ⟨t, ht, h⟩ := bind_eq_ok.mp h
        rw [← pure_eq_ok.mp h]
        exact .integralPower t hop ht
    | false =>
        rw [if_neg (by rw [hi]; decide)] at h
        obtain ⟨a, ha, h⟩ := bind_eq_ok.mp h
        obtain ⟨b, hb, h⟩ := bind_eq_ok.mp h
        rw [← pure_eq_ok.mp h]
        exact .doublePower a b hop hi ha hb
  · intro h
    cases h with
    | integralPower t _ ht =>
        have hi := Ty.promoteIntegral_eq_ok.mp ht
        rw [if_pos (by rw [hi.1, hi.2.1]; rfl), bind_eq_ok]
        exact ⟨t, ht, rfl⟩
    | doublePower a b _ hi ha hb =>
        rw [if_neg (by rw [hi]; decide), bind_eq_ok]
        exact ⟨a, ha, bind_eq_ok.mpr ⟨b, hb, rfl⟩⟩
    | concat hk _ => rw [hop] at hk; cases hk
    | operator o t _ ho _ _ => rw [hop] at ho; cases ho

theorem combine_eq_ok {left right c : Code} {op : Token} :
    left.combine op right = .ok c ↔
      ∃ l r, left.type = some l ∧ right.type = some r ∧ Combined left l op right r c := by
  simp only [combine, bind_eq_ok, valueType_eq_ok]
  constructor
  · rintro ⟨l, hl, r, hr, h⟩
    refine ⟨l, r, hl, hr, ?_⟩
    split at h
    · rename_i hk
      exact (raise_eq_ok hk hl hr).mp h
    · split at h
      · rename_i hs
        rw [← pure_eq_ok.mp h]
        exact .concat hs.1 hs.2
      · rename_i hs
        cases ho : BinaryOp.ofKind? op.kind with
        | none => rw [ho] at h; exact absurd h throw_ne_ok
        | some o =>
            rw [ho] at h
            obtain ⟨t, ht, h⟩ := bind_eq_ok.mp h
            split at h
            · exact absurd h throw_ne_ok
            · rename_i hrel
              rw [← pure_eq_ok.mp h]
              refine .operator o t hs ho ht ?_
              simpa using hrel
  · rintro ⟨l, r, hl, hr, h⟩
    refine ⟨l, hl, r, hr, ?_⟩
    by_cases hk : op.kind = .power
    · rw [if_pos hk]
      exact (raise_eq_ok hk hl hr).mpr h
    · rw [if_neg hk]
      cases h with
      | integralPower t hk' _ => exact absurd hk' hk
      | doublePower a b hk' _ _ _ => exact absurd hk' hk
      | concat hp hs => rw [if_pos ⟨hp, hs⟩]; rfl
      | operator o t hs ho ht hrel =>
          rw [if_neg hs, ho]
          refine bind_eq_ok.mpr ⟨t, ht, ?_⟩
          rw [if_neg (by simpa using hrel)]
          rfl

/-! ### Casts -/

theorem castTo_eq_ok {c d : Code} {name : String} {line : Nat} :
    c.castTo name line = .ok d ↔
      ∃ source target, Ty.ofName? name = some target ∧ c.type = some source ∧
        source.casts target ∧
        d = if source = target then c else .convert c ⟨some target, line⟩ := by
  unfold castTo
  cases hn : Ty.ofName? name with
  | none => simp
  | some target =>
      simp only [bind_eq_ok, valueType_eq_ok, Option.some.injEq]
      constructor
      · rintro ⟨source, hs, h⟩
        refine ⟨source, target, rfl, hs, ?_⟩
        cases hc : source.casts target with
        | false => rw [hc] at h; exact absurd h throw_ne_ok
        | true =>
            rw [hc, if_neg (by decide)] at h
            refine ⟨rfl, ?_⟩
            split at h
            · rw [if_pos ‹_›, ← pure_eq_ok.mp h]
            · rw [if_neg ‹_›, ← pure_eq_ok.mp h]
      · rintro ⟨source, _, rfl, hs, hc, rfl⟩
        refine ⟨source, hs, ?_⟩
        rw [hc, if_neg (by decide)]
        split
        · rfl
        · rfl

end Code

end SlotScript
