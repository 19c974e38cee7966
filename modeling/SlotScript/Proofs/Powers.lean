import Mathlib.Algebra.Ring.Int.Parity
import Mathlib.Data.Int.ModEq
import SlotScript.Value.Power

/-! # Powers of words

Words are signed numbers of a fixed width, and their product is wrapped around.  Squaring
and multiplying goes on with wrapped squares, so it computes a power only modulo the width
(`Words.power_modEq`); being a word, its result is the one that is in range.  With a negative
exponent the power is a fraction cut towards zero.

`IsPower` says this for any width.  The main statement `longPower_isPower_and_narrows` is
that both widths follow it, and that the narrow power is the wide one cut to its width. -/

namespace SlotScript

/-- `r` is the power of `b` with the exponent `e` among the signed numbers of `w` bits. -/
structure IsPower (w : Nat) (b e r : Int) : Prop where
  /-- A power is wrapped around at the width. -/
  wrapped : 0 ≤ e → r = (b ^ e.toNat).bmod (2 ^ w)
  /-- The reciprocal of a power is cut towards zero; zero has none and gives zero. -/
  reciprocal : e < 0 → r = if b = 0 then 0 else Int.tdiv 1 (b ^ e.natAbs)
  /-- Something is left of it only if the base is one or minus one. -/
  units : e < 0 → r = if b = 1 then 1 else if b = -1 then (if Even e then 1 else -1) else 0

/-! ### Squaring and multiplying -/

section Words

variable {α : Type} [Mul α] [Neg α] [OfNat α 0] [OfNat α 1]

/-- The words of type `α` stand for the signed numbers of `w` bits. -/
structure Words (value : α → Int) (w : Nat) : Prop where
  inj : ∀ a b, a = b ↔ value a = value b
  zero : value 0 = 0
  one : value 1 = 1
  neg_one : value (-1) = -1
  mul : ∀ a b, value (a * b) = (value a * value b).bmod (2 ^ w)
  range : ∀ a, (value a).bmod (2 ^ w) = value a

variable {value : α → Int} {w : Nat}

theorem bmod_eq_of_modEq {a b : Int} {n : Nat} (h : a ≡ b [ZMOD n]) : a.bmod n = b.bmod n := by
  rw [← Int.emod_bmod a, ← Int.emod_bmod b, h]

/-- Since products are taken modulo the width, so are powers. -/
theorem Words.power_modEq (hw : Words value w) (b : α) (k : Nat) :
    value (power b k) ≡ value b ^ k [ZMOD (2 ^ w : Nat)] := by
  have hproduct : ∀ a b, value (a * b) ≡ value a * value b [ZMOD (2 ^ w : Nat)] := by
    intro a b
    rw [hw.mul]
    exact Int.bmod_emod
  -- The recursion goes on with the wrapped square, so the base changes with the exponent.
  fun_induction power b k with
  | case1 b => rw [hw.one, pow_zero]
  | case2 b k hk hodd ih =>
      have hhalf : k = 2 * (k / 2) + 1 := by omega
      calc value (b * power (b * b) (k / 2))
          ≡ value b * value (power (b * b) (k / 2)) [ZMOD (2 ^ w : Nat)] := hproduct _ _
        _ ≡ value b * value (b * b) ^ (k / 2) [ZMOD (2 ^ w : Nat)] := ih.mul_left _
        _ ≡ value b * (value b * value b) ^ (k / 2) [ZMOD (2 ^ w : Nat)] :=
            ((hproduct b b).pow _).mul_left _
        _ = value b ^ k := by
            rw [← pow_two, ← pow_mul, ← pow_succ', ← hhalf]
  | case3 b k hk heven ih =>
      have hhalf : k = 2 * (k / 2) := by omega
      calc value (power (b * b) (k / 2))
          ≡ value (b * b) ^ (k / 2) [ZMOD (2 ^ w : Nat)] := ih
        _ ≡ (value b * value b) ^ (k / 2) [ZMOD (2 ^ w : Nat)] := (hproduct b b).pow _
        _ = value b ^ k := by
            rw [← pow_two, ← pow_mul, ← hhalf]

/-! ### Negative exponents -/

theorem one_tdiv_of_large {a : Int} (h : 1 < a.natAbs) : Int.tdiv 1 a = 0 := by
  by_cases hpos : 1 < a
  · exact Int.tdiv_eq_zero_of_lt (by omega) hpos
  · have hneg : Int.tdiv 1 (-a) = 0 := Int.tdiv_eq_zero_of_lt (by omega) (by omega)
    rw [Int.tdiv_neg] at hneg
    omega

/-- The reciprocal of a power, cut towards zero. -/
theorem one_tdiv_pow {b e : Int} (he : e < 0) :
    (if b = 0 then 0 else Int.tdiv 1 (b ^ e.natAbs)) =
      if b = 1 then 1 else if b = -1 then (if Even e then 1 else -1) else 0 := by
  by_cases hone : b = 1
  · simp [hone]
  by_cases hminus : b = -1
  · have hparity : Even e ↔ Even e.natAbs := Int.natAbs_even.symm
    by_cases heven : Even e
    · have hpow : (-1 : Int) ^ e.natAbs = 1 := (hparity.mp heven).neg_one_pow
      simp [hminus, heven, hpow]
    · have hpow : (-1 : Int) ^ e.natAbs = -1 := by
        apply Odd.neg_one_pow
        rw [← Nat.not_even_iff_odd, ← hparity]
        exact heven
      simp [hminus, heven, hpow]
  by_cases hzero : b = 0
  · simp [hzero]
  · have hlarge : 1 < (b ^ e.natAbs).natAbs := by
      rw [Int.natAbs_pow]
      exact Nat.one_lt_pow (by omega) (by omega)
    simp [hone, hminus, hzero, one_tdiv_of_large hlarge]

/-! ### Words of both widths -/

/-- The power as words of any width compute it. -/
def wordPower [DecidableEq α] (b : α) (e : Int) : α :=
  if 0 ≤ e then power b e.toNat
  else if b = 1 then 1
  else if b = -1 then (if Even e then 1 else -1)
  else 0

theorem Words.isPower [DecidableEq α] (hw : Words value w) (b : α) (e : Int) :
    IsPower w (value b) e (value (wordPower b e)) := by
  have hunits : e < 0 → value (wordPower b e) =
      if value b = 1 then 1 else if value b = -1 then (if Even e then 1 else -1) else 0 := by
    intro he
    have hneg : ¬ 0 ≤ e := by omega
    simp only [wordPower, if_neg hneg, apply_ite value, hw.inj, hw.zero, hw.one, hw.neg_one]
  refine ⟨?_, ?_, hunits⟩
  · intro he
    rw [← hw.range, wordPower, if_pos he]
    exact bmod_eq_of_modEq (hw.power_modEq b e.toNat)
  · intro he
    rw [hunits he, one_tdiv_pow he]

end Words

theorem tmod_two_eq_zero {e : Int} : e.tmod 2 = 0 ↔ Even e := by
  rw [even_iff_two_dvd, Int.dvd_iff_tmod_eq_zero]

theorem words_long : Words Int64.toInt 64 :=
  ⟨fun _ _ => Int64.toInt_inj.symm, rfl, rfl, rfl, Int64.toInt_mul, Int64.toInt_bmod⟩

theorem words_int : Words Int32.toInt 32 :=
  ⟨fun _ _ => Int32.toInt_inj.symm, rfl, rfl, rfl, Int32.toInt_mul, Int32.toInt_bmod⟩

theorem longPower_eq_wordPower (b e : Int64) : longPower b e = wordPower b e.toInt := by
  have hsign : 0 ≤ e ↔ 0 ≤ e.toInt := Int64.le_iff_toInt_le
  have heven : e % 2 = 0 ↔ Even e.toInt := by
    rw [words_long.inj, Int64.toInt_mod]
    exact tmod_two_eq_zero
  simp only [longPower, wordPower, hsign, heven]

theorem intPower_eq_wordPower (b e : Int32) : intPower b e = wordPower b e.toInt := by
  have hsign : 0 ≤ e ↔ 0 ≤ e.toInt := Int32.le_iff_toInt_le
  have heven : e % 2 = 0 ↔ Even e.toInt := by
    rw [words_int.inj, Int32.toInt_mod]
    exact tmod_two_eq_zero
  simp only [intPower, wordPower, hsign, heven]

theorem longPower_isPower (b e : Int64) : IsPower 64 b.toInt e.toInt (longPower b e).toInt := by
  rw [longPower_eq_wordPower]
  exact words_long.isPower b e.toInt

theorem intPower_isPower (b e : Int32) : IsPower 32 b.toInt e.toInt (intPower b e).toInt := by
  rw [intPower_eq_wordPower]
  exact words_int.isPower b e.toInt

/-- A power among narrow words is one among wide words, cut to the narrow width. -/
theorem IsPower.narrow {v w : Nat} (hwidth : w ≤ v) {b e r s : Int} (hr : IsPower v b e r)
    (hs : IsPower w b e s) (hrange : s.bmod (2 ^ w) = s) : s = r.bmod (2 ^ w) := by
  by_cases he : 0 ≤ e
  · rw [hr.wrapped he, hs.wrapped he, Int.bmod_bmod_of_dvd (Nat.pow_dvd_pow 2 hwidth)]
  · have heq : r = s := by rw [hr.units (by omega), hs.units (by omega)]
    rw [heq, hrange]

/-- A power of words is the power of the numbers they stand for, wrapped around at their
width, or with a negative exponent cut towards zero; and widening the arguments, raising and
narrowing the result is the same as raising them as they are. -/
theorem longPower_isPower_and_narrows :
    (∀ b e : Int64, IsPower 64 b.toInt e.toInt (longPower b e).toInt) ∧
      (∀ b e : Int32, IsPower 32 b.toInt e.toInt (intPower b e).toInt) ∧
      ∀ b e : Int32, intPower b e = (longPower b.toInt64 e.toInt64).toInt32 := by
  refine ⟨longPower_isPower, intPower_isPower, ?_⟩
  intro b e
  have hwide := longPower_isPower b.toInt64 e.toInt64
  rw [Int32.toInt_toInt64, Int32.toInt_toInt64] at hwide
  have hnarrow := hwide.narrow (by decide) (intPower_isPower b e) (words_int.range _)
  rw [← Int32.toInt_inj, Int64.toInt_toInt32]
  exact hnarrow

end SlotScript
