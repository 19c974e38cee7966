import Mathlib.Data.List.Forall2
import SlotScript.Lowering
import SlotScript.Proofs.Promotion
import SlotScript.Value.Cast
import SlotScript.Value.Operation
import SlotScript.Value.Power

/-! # Types of values

`Value.HasType v t` says that a running program may hold `v` where `t` is
declared.  Most types have the values of one tag; a string may be missing, and an
object is anything that is a value at all.

An operation on values of types that it is made for gives a value of its result
type, and only two of them can fail on such values: the division of whole
numbers (`BinaryOp.onValues_yields`) and the cast out of `object` or into `char`
(`Value.cast_yields`). -/

namespace SlotScript

open Outcome

namespace Value

/-- The value belongs to the type. -/
inductive HasType : Value → Ty → Prop
  | int (n : Int32) : HasType (.int n) .int
  | long (n : Int64) : HasType (.long n) .long
  | double (x : Float) : HasType (.double x) .double
  | bool (b : Bool) : HasType (.bool b) .bool
  | string (s : String) : HasType (.string s) .string
  /-- A string that was never set. -/
  | missing : HasType .null .string
  | char (c : Char) : HasType (.char c) .char
  | object {v : Value} : v ≠ .unit → HasType v .object

/-- The value is one that code of a static type gives; code without a type gives
`unit`. -/
def Fits (v : Value) : Option Ty → Prop
  | some t => v.HasType t
  | none => v = .unit

theorem HasType.ne_unit {v : Value} {t : Ty} (h : v.HasType t) : v ≠ .unit := by
  cases h with
  | object h => exact h
  | _ => exact nofun

theorem default_hasType (t : Ty) : (Value.default t).HasType t := by
  cases t with
  | int => exact .int 0
  | long => exact .long 0
  | double => exact .double 0.0
  | bool => exact .bool false
  | string => exact .missing
  | char => exact .char '\x00'
  | object => exact .object nofun

end Value

theorem Literal.value_hasType (v : Literal) : v.value.HasType v.type := by
  cases v with
  | int n => exact .int n
  | long n => exact .long n
  | double x => exact .double x
  | bool b => exact .bool b
  | string s => exact .string s
  | char c => exact .char c
  | null => exact .object nofun

theorem Lowering.stepValue_hasType {t : Ty} {one : Value} (h : stepValue? t = some one) :
    t.isNumeric ∧ one.HasType t := by
  cases t <;> cases h
  · exact ⟨rfl, .int 1⟩
  · exact ⟨rfl, .long 1⟩
  · exact ⟨rfl, .double 1.0⟩

/-! ### Operators -/

/-- The types on whose values an operator is defined. -/
def BinaryOp.AppliesTo : BinaryOp → Ty → Prop
  | .arithmetic _, t => t.isNumeric
  | .bitwise _, t => t.isIntegral
  | .comparison op, t => op.isRelational → t.isScalar

/-- The types on whose values an operator in front is defined. -/
def UnaryOp.AppliesTo : UnaryOp → Ty → Prop
  | .negate, t => t.isNumeric
  | .not, t => t = .bool
  | .complement, t => t.isIntegral

/-- The argument types of a builtin, with the type of its result. -/
inductive Builtin.Takes : Builtin → List Ty → Ty → Prop
  | intPower : Takes .intPower [.int, .int] .int
  | longPower : Takes .longPower [.long, .long] .long
  | doublePower : Takes .doublePower [.double, .double] .double
  | concat (a b : Ty) : Takes .concat [a, b] .string

theorem Ty.numeric_of_widens {s t : Ty} (h : s.widens t) : s = t ∨ (s.isNumeric ∧ t.isNumeric) := by
  cases s <;> cases t <;> revert h <;> decide

theorem Ty.promote_appliesTo {o : BinaryOp} {l r t : Ty} (ht : o.promote l r = .ok t)
    (hrel : o.isRelational = true → t.isScalar = true) :
    o.AppliesTo t ∧ (l = t ∨ l.isNumeric ∧ t.isNumeric) ∧ (r = t ∨ r.isNumeric ∧ t.isNumeric) := by
  cases o with
  | arithmetic o =>
      obtain ⟨hl, hr, h, hlw, hrw⟩ := Ty.promoteNumeric_eq_ok.mp ht
      refine ⟨?_, Ty.numeric_of_widens hlw, Ty.numeric_of_widens hrw⟩
      rcases h with rfl | rfl
      · exact hl
      · exact hr
  | bitwise o =>
      obtain ⟨hl, hr, ht⟩ := Ty.promoteIntegral_eq_ok.mp ht
      obtain ⟨_, _, h, hlw, hrw⟩ := Ty.promoteNumeric_eq_ok.mp ht
      refine ⟨?_, Ty.numeric_of_widens hlw, Ty.numeric_of_widens hrw⟩
      rcases h with rfl | rfl
      · exact hl
      · exact hr
  | comparison o =>
      refine ⟨hrel, ?_⟩
      rcases Ty.promoteComparison_eq_ok.mp ht with ⟨rfl, rfl⟩ | ⟨_, ht⟩
      · exact ⟨.inl rfl, .inl rfl⟩
      · obtain ⟨_, _, _, hlw, hrw⟩ := Ty.promoteNumeric_eq_ok.mp ht
        exact ⟨Ty.numeric_of_widens hlw, Ty.numeric_of_widens hrw⟩

/-- The faults of a division of whole numbers. -/
def ValueFault.IsDivision (f : ValueFault) : Prop := f = .divisionByZero ∨ f = .overflow

/-- The operators that divide. -/
def Arithmetic.Divides (op : Arithmetic) : Prop := op = .divide ∨ op = .remainder

theorem Arithmetic.onInt_yields (op : Arithmetic) (l r : Int32) :
    Yields (op.onInt l r) (fun _ => True) fun f => op.Divides ∧ f.IsDivision := by
  cases op with
  | add | subtract | multiply => exact trivial
  | divide =>
      unfold onInt
      split_ifs
      · exact ⟨.inl rfl, .inl rfl⟩
      · exact ⟨.inl rfl, .inr rfl⟩
      · exact trivial
  | remainder =>
      unfold onInt
      split_ifs
      · exact ⟨.inr rfl, .inl rfl⟩
      · exact ⟨.inr rfl, .inr rfl⟩
      · exact trivial

theorem Arithmetic.onLong_yields (op : Arithmetic) (l r : Int64) :
    Yields (op.onLong l r) (fun _ => True) fun f => op.Divides ∧ f.IsDivision := by
  cases op with
  | add | subtract | multiply => exact trivial
  | divide =>
      unfold onLong
      split_ifs
      · exact ⟨.inl rfl, .inl rfl⟩
      · exact ⟨.inl rfl, .inr rfl⟩
      · exact trivial
  | remainder =>
      unfold onLong
      split_ifs
      · exact ⟨.inr rfl, .inl rfl⟩
      · exact ⟨.inr rfl, .inr rfl⟩
      · exact trivial

/-- An operator on two values of a type it applies to gives a value of its
result type; only a division of whole numbers can fail. -/
theorem BinaryOp.onValues_yields {op : BinaryOp} {t : Ty} {l r : Value} (ht : op.AppliesTo t)
    (hl : l.HasType t) (hr : r.HasType t) :
    Yields (op.onValues l r) (·.HasType (op.resultType t)) fun f =>
      (∃ o, op = .arithmetic o ∧ o.Divides) ∧ t.isIntegral ∧ f.IsDivision := by
  cases op with
  | arithmetic o =>
      obtain rfl | rfl | rfl := Ty.isNumeric_iff.mp ht
      · cases hl with | int a => cases hr with | int b =>
        have h := o.onInt_yields a b
        simp only [onValues]
        cases hab : o.onInt a b with
        | ok n => exact .int n
        | error f => rw [hab] at h; exact ⟨⟨o, rfl, h.1⟩, rfl, h.2⟩
      · cases hl with | long a => cases hr with | long b =>
        have h := o.onLong_yields a b
        simp only [onValues]
        cases hab : o.onLong a b with
        | ok n => exact .long n
        | error f => rw [hab] at h; exact ⟨⟨o, rfl, h.1⟩, rfl, h.2⟩
      · cases hl with | double a => cases hr with | double b => exact .double _
  | bitwise o =>
      obtain rfl | rfl := Ty.isIntegral_iff.mp ht
      · cases hl with | int a => cases hr with | int b => exact .int _
      · cases hl with | long a => cases hr with | long b => exact .long _
  | comparison o =>
      have scalar : o.isRelational = true → ∃ b, o.onValues l r = .ok b := by
        intro hrel
        obtain rfl | rfl | rfl | rfl := Ty.isScalar_iff.mp (ht hrel)
        all_goals
          cases hl
          cases hr
          cases o <;> exact ⟨_, rfl⟩
      have any : ∃ b, o.onValues l r = .ok b := by
        cases o with
        | equal => exact ⟨_, rfl⟩
        | notEqual => exact ⟨_, rfl⟩
        | _ => exact scalar rfl
      obtain ⟨b, hb⟩ := any
      rw [onValues, hb]
      exact .bool b

theorem UnaryOp.onValue_hasType {op : UnaryOp} {t : Ty} {v : Value} (ht : op.AppliesTo t)
    (hv : v.HasType t) : ∃ w, op.onValue v = .ok w ∧ w.HasType t := by
  cases op with
  | negate =>
      obtain rfl | rfl | rfl := Ty.isNumeric_iff.mp ht
      · cases hv with | int n => exact ⟨_, rfl, .int _⟩
      · cases hv with | long n => exact ⟨_, rfl, .long _⟩
      · cases hv with | double x => exact ⟨_, rfl, .double _⟩
  | not =>
      cases ht
      cases hv with | bool b => exact ⟨_, rfl, .bool _⟩
  | complement =>
      obtain rfl | rfl := Ty.isIntegral_iff.mp ht
      · cases hv with | int n => exact ⟨_, rfl, .int _⟩
      · cases hv with | long n => exact ⟨_, rfl, .long _⟩

theorem Builtin.onValues_hasType {h : Builtin} {ts : List Ty} {t : Ty} {vs : List Value}
    (ht : h.Takes ts t) (hvs : List.Forall₂ Value.HasType vs ts) :
    ∃ w, h.onValues vs = .ok w ∧ w.HasType t := by
  obtain ⟨a, b, rfl⟩ : ∃ a b, ts = [a, b] := by
    cases ht <;> exact ⟨_, _, rfl⟩
  obtain ⟨v, w, rfl, hv, hw⟩ : ∃ v w, vs = [v, w] ∧ v.HasType a ∧ w.HasType b := by
    cases hvs with
    | cons hv hrest =>
        cases hrest with
        | cons hw hnil => cases hnil; exact ⟨_, _, rfl, hv, hw⟩
  cases ht with
  | intPower => cases hv; cases hw; exact ⟨_, rfl, .int _⟩
  | longPower => cases hv; cases hw; exact ⟨_, rfl, .long _⟩
  | doublePower => cases hv; cases hw; exact ⟨_, rfl, .double _⟩
  | concat a b => exact ⟨_, rfl, .string _⟩

/-! ### Casts -/

namespace Value

/-- Casts between numbers never fail. -/
theorem cast_hasType_of_numeric {v : Value} {source target : Ty} (hs : source.isNumeric)
    (ht : target.isNumeric) (hv : v.HasType source) :
    ∃ w, v.cast target = .ok w ∧ w.HasType target := by
  obtain rfl | rfl | rfl := Ty.isNumeric_iff.mp ht
  · obtain rfl | rfl | rfl := Ty.isNumeric_iff.mp hs <;> cases hv <;> exact ⟨_, rfl, .int _⟩
  · obtain rfl | rfl | rfl := Ty.isNumeric_iff.mp hs <;> cases hv <;> exact ⟨_, rfl, .long _⟩
  · obtain rfl | rfl | rfl := Ty.isNumeric_iff.mp hs <;> cases hv <;> exact ⟨_, rfl, .double _⟩

/-- The ways in which a legal cast can fail: the value of an object is of another
type, or a number is no character code. -/
def CastFault (v : Value) (source target : Ty) (f : ValueFault) : Prop :=
  (source = .object ∧ f = .invalidCast v.tag target) ∨
    (target = .char ∧ ∃ code, f = .invalidCharacterCode code)

theorem charOfCode_yields (v : Value) (source : Ty) (code : Int) :
    Yields ((charOfCode code).map Value.char) (·.HasType .char) (CastFault v source .char) := by
  unfold charOfCode
  split
  · exact .char _
  · exact .inr ⟨rfl, code, rfl⟩

theorem cast_yields {v : Value} {source target : Ty} (hc : source.casts target)
    (hv : v.HasType source) :
    Yields (v.cast target) (·.HasType target) (CastFault v source target) := by
  -- Out of `object` any value may come; elsewhere the value's tag follows from its type.
  cases target with
  | object => exact .object hv.ne_unit
  | string =>
      cases v with
      | null => exact .missing
      | unit => exact absurd rfl hv.ne_unit
      | _ => exact .string _
  | int =>
      cases hv with
      | int | long | double | char => exact .int _
      | bool | string | missing => cases hc
      | object hu =>
          cases v with
          | int | long | double | char => exact .int _
          | _ => exact .inl ⟨rfl, rfl⟩
  | long =>
      cases hv with
      | int | long | double | char => exact .long _
      | bool | string | missing => cases hc
      | object hu =>
          cases v with
          | int | long | double | char => exact .long _
          | _ => exact .inl ⟨rfl, rfl⟩
  | double =>
      cases hv with
      | int | long | double | char => exact .double _
      | bool | string | missing => cases hc
      | object hu =>
          cases v with
          | int | long | double | char => exact .double _
          | _ => exact .inl ⟨rfl, rfl⟩
  | char =>
      cases hv with
      | int | long | double => exact charOfCode_yields _ _ _
      | char => exact .char _
      | bool | string | missing => cases hc
      | object hu =>
          cases v with
          | int | long | double => exact charOfCode_yields _ _ _
          | char => exact .char _
          | _ => exact .inl ⟨rfl, rfl⟩
  | bool =>
      cases hv with
      | bool => exact .bool _
      | int | long | double | char | string | missing => cases hc
      | object hu =>
          cases v with
          | bool => exact .bool _
          | _ => exact .inl ⟨rfl, rfl⟩

end Value

end SlotScript
