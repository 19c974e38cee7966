import Mathlib.Algebra.Order.Ring.Int
import Mathlib.Data.Int.ModEq
import SlotScript.Proofs.Attempts
import SlotScript.Value.Operation

/-! # Arithmetic on words

The two types of whole numbers are words: signed numbers of a fixed width.  Their operators
are described by what they give on numbers of any size.  A sum, a difference, a product and a
shift to the left are wrapped around at the width (`Wraps`); a quotient is cut towards zero
and leaves a remainder with the sign of the dividend (`Divided`); a shift to the right rounds
down.  A division has no result if the divisor is zero or the quotient does not fit.

`WordType.Exact` says this for the words of any width.  `Arithmetic.onNumbers` computes it on
numbers, and the operators on words follow it (`WordType.Follows`), so the two widths share
one argument (`WordType.Follows.exactOn`).  The main statement is `onValues_exact`. -/

namespace SlotScript

/-! ### Numbers of a width -/

/-- `s` is the signed number of `w` bits that is `n` up to a multiple of `2 ^ w`. -/
structure Wraps (w : Nat) (n s : Int) : Prop where
  lower : -2 ^ (w - 1) ≤ s
  upper : s < 2 ^ (w - 1)
  congruent : s ≡ n [ZMOD 2 ^ w]

/-- `q` and `m` are quotient and remainder of `l` by `r`, the quotient cut towards zero. -/
structure Divided (l r q m : Int) : Prop where
  sum : l = q * r + m
  small : |m| < |r|
  sign : m = 0 ∨ m.sign = l.sign

/-- The quotient of `l` by `r` is one too high for `w` bits. -/
def Overflows (w : Nat) (l r : Int) : Prop := l = -2 ^ (w - 1) ∧ r = -1

instance (w : Nat) (l r : Int) : Decidable (Overflows w l r) :=
  inferInstanceAs (Decidable (l = -2 ^ (w - 1) ∧ r = -1))

theorem wraps_bmod {w : Nat} (hw : 0 < w) (n : Int) : Wraps w n (n.bmod (2 ^ w)) := by
  have hhalf : 2 ^ w = 2 * 2 ^ (w - 1) := by
    rw [← Nat.pow_succ']
    congr 1
    omega
  have hpos : 0 < 2 ^ w := Nat.two_pow_pos w
  have hlower := Int.le_bmod (x := n) hpos
  have hupper := Int.bmod_lt (x := n) hpos
  have hcast : ((2 ^ (w - 1) : Nat) : Int) = 2 ^ (w - 1) := by push_cast; rfl
  refine ⟨?_, ?_, ?_⟩
  · omega
  · omega
  · have hmod : n.bmod (2 ^ w) ≡ n [ZMOD (2 ^ w : Nat)] := Int.bmod_emod
    exact_mod_cast hmod

theorem divided_tdiv_tmod (l : Int) {r : Int} (hr : r ≠ 0) :
    Divided l r (l.tdiv r) (l.tmod r) := by
  refine ⟨?_, ?_, ?_⟩
  · rw [Int.mul_comm]
    exact (Int.mul_tdiv_add_tmod l r).symm
  · rw [Int.abs_eq_natAbs, Int.abs_eq_natAbs, Int.natAbs_tmod]
    exact_mod_cast Nat.mod_lt _ (Int.natAbs_pos.mpr hr)
  · by_cases hdvd : r ∣ l
    · exact .inl (Int.tmod_eq_zero_of_dvd hdvd)
    · right
      rw [Int.sign_tmod, if_neg hdvd]

/-! ### Operators on numbers -/

namespace Arithmetic

/-- The operators that divide. -/
def divisions : List Arithmetic := [.divide, .remainder]

/-- The outcome of a division that would give `result`. -/
def guarded (w : Nat) (l r result : Int) : Except ValueFault Int :=
  if r = 0 then .error .divisionByZero
  else if Overflows w l r then .error .overflow
  else .ok result

/-- The operator on the signed numbers of `w` bits. -/
def onNumbers (w : Nat) (op : Arithmetic) (l r : Int) : Except ValueFault Int :=
  match op with
  | .add => .ok ((l + r).bmod (2 ^ w))
  | .subtract => .ok ((l - r).bmod (2 ^ w))
  | .multiply => .ok ((l * r).bmod (2 ^ w))
  | .divide => guarded w l r (l.tdiv r)
  | .remainder => guarded w l r (l.tmod r)

end Arithmetic

/-! ### Types of words -/

/-- A type of whole numbers: the numbers that its words stand for, and its words as values. -/
structure WordType (α : Type) where
  width : Nat
  number : α → Int
  inject : α → Value

namespace WordType

/-- The words of type `int`. -/
def int : WordType Int32 := ⟨32, Int32.toInt, .int⟩

/-- The words of type `long`. -/
def long : WordType Int64 := ⟨64, Int64.toInt, .long⟩

section outcomes

variable {α : Type} (W : WordType α) (op : BinaryOp) (l r : α)

/-- The operator gives the word of a number. -/
def Gives (n : Int) : Prop :=
  ∃ s, op.onValues (W.inject l) (W.inject r) = .ok (W.inject s) ∧ W.number s = n

/-- The operator has no result, for the reason that the text tells. -/
def Fails (text : String) : Prop :=
  ∃ fault, op.onValues (W.inject l) (W.inject r) = .error fault ∧ fault.message = text

/-- How far the operands of a shift are shifted. -/
def count : Nat := (W.number r % W.width).toNat

/-- What the operators give on two words. -/
structure Exact : Prop where
  add : ∃ s, W.Gives (.arithmetic .add) l r s ∧ Wraps W.width (W.number l + W.number r) s
  subtract : ∃ s, W.Gives (.arithmetic .subtract) l r s ∧ Wraps W.width (W.number l - W.number r) s
  multiply : ∃ s, W.Gives (.arithmetic .multiply) l r s ∧ Wraps W.width (W.number l * W.number r) s
  divisionByZero : ∀ op ∈ Arithmetic.divisions,
    W.Fails (.arithmetic op) l r "Attempted to divide by zero." ↔ W.number r = 0
  overflow : ∀ op ∈ Arithmetic.divisions,
    W.Fails (.arithmetic op) l r "Arithmetic operation resulted in an overflow." ↔
      Overflows W.width (W.number l) (W.number r)
  divide : W.number r ≠ 0 → ¬ Overflows W.width (W.number l) (W.number r) →
    ∃ q m, W.Gives (.arithmetic .divide) l r q ∧ W.Gives (.arithmetic .remainder) l r m ∧
      Divided (W.number l) (W.number r) q m
  shiftLeft : ∃ s, W.Gives (.bitwise .shiftLeft) l r s ∧
    Wraps W.width (W.number l * 2 ^ W.count r) s
  shiftRight : W.Gives (.bitwise .shiftRight) l r ((W.number l).fdiv (2 ^ W.count r))

end outcomes

variable {α : Type} {W : WordType α}

/-- The operators on words are those on the numbers that the words stand for. -/
structure Follows (W : WordType α) : Prop where
  positive : 0 < W.width
  arithmetic : ∀ op l r, ∃ result : Except ValueFault α,
    (BinaryOp.arithmetic op).onValues (W.inject l) (W.inject r) = result.map W.inject ∧
      result.map W.number = op.onNumbers W.width (W.number l) (W.number r)
  shiftLeft : ∀ l r, W.Gives (.bitwise .shiftLeft) l r
    ((W.number l * 2 ^ W.count r).bmod (2 ^ W.width))
  shiftRight : ∀ l r, W.Gives (.bitwise .shiftRight) l r (W.number l / 2 ^ W.count r)

namespace Follows

variable {op : Arithmetic} {l r : α}

theorem gives (hW : W.Follows) {n : Int}
    (h : op.onNumbers W.width (W.number l) (W.number r) = .ok n) :
    W.Gives (.arithmetic op) l r n := by
  obtain ⟨result, hvalues, hnumbers⟩ := hW.arithmetic op l r
  rw [h] at hnumbers
  obtain ⟨s, rfl, hs⟩ := Outcome.map_eq_ok.mp hnumbers
  exact ⟨s, hvalues, hs⟩

theorem fails_iff (hW : W.Follows) {text : String} :
    W.Fails (.arithmetic op) l r text ↔
      ∃ fault, op.onNumbers W.width (W.number l) (W.number r) = .error fault ∧
        fault.message = text := by
  obtain ⟨result, hvalues, hnumbers⟩ := hW.arithmetic op l r
  simp only [Fails, hvalues, ← hnumbers, Outcome.map_eq_error]

/-- A division fails for one of two reasons. -/
theorem fails_division_iff (hW : W.Follows) (hop : op ∈ Arithmetic.divisions)
    {text : String} :
    W.Fails (.arithmetic op) l r text ↔
      (W.number r = 0 ∧ ValueFault.divisionByZero.message = text) ∨
        (Overflows W.width (W.number l) (W.number r) ∧ ValueFault.overflow.message = text) := by
  have hguarded : ∃ n, op.onNumbers W.width (W.number l) (W.number r) =
      Arithmetic.guarded W.width (W.number l) (W.number r) n := by
    simp only [Arithmetic.divisions, List.mem_cons, List.not_mem_nil, or_false] at hop
    rcases hop with rfl | rfl
    · exact ⟨_, rfl⟩
    · exact ⟨_, rfl⟩
  obtain ⟨n, hn⟩ := hguarded
  rw [hW.fails_iff, hn, Arithmetic.guarded]
  by_cases hzero : W.number r = 0
  · have hrange : ¬ Overflows W.width (W.number l) 0 := fun h => absurd h.2 (by decide)
    simp [hzero, hrange]
  · by_cases hrange : Overflows W.width (W.number l) (W.number r)
    · rw [if_neg hzero, if_pos hrange]
      simp [hzero, hrange]
    · rw [if_neg hzero, if_neg hrange]
      simp [hzero, hrange]

/-- Words that follow the numbers they stand for are exact. -/
theorem exactOn (hW : W.Follows) (l r : α) : W.Exact l r where
  add := ⟨_, hW.gives rfl, wraps_bmod hW.positive _⟩
  subtract := ⟨_, hW.gives rfl, wraps_bmod hW.positive _⟩
  multiply := ⟨_, hW.gives rfl, wraps_bmod hW.positive _⟩
  divisionByZero op hop := by
    have hother : ValueFault.overflow.message ≠ "Attempted to divide by zero." := by decide
    have hthis : ValueFault.divisionByZero.message = "Attempted to divide by zero." := rfl
    simp [hW.fails_division_iff hop, hother, hthis]
  overflow op hop := by
    have hother : ValueFault.divisionByZero.message ≠
        "Arithmetic operation resulted in an overflow." := by decide
    have hthis : ValueFault.overflow.message =
        "Arithmetic operation resulted in an overflow." := rfl
    simp [hW.fails_division_iff hop, hother, hthis]
  divide hzero hrange := by
    have hguarded : ∀ n, Arithmetic.guarded W.width (W.number l) (W.number r) n = .ok n := by
      intro n
      rw [Arithmetic.guarded, if_neg hzero, if_neg hrange]
    exact ⟨_, _, hW.gives (hguarded _), hW.gives (hguarded _), divided_tdiv_tmod _ hzero⟩
  shiftLeft := ⟨_, hW.shiftLeft l r, wraps_bmod hW.positive _⟩
  shiftRight := by
    rw [Int.fdiv_eq_ediv_of_nonneg _ (Int.pow_nonneg (by decide))]
    exact hW.shiftRight l r

end Follows

/-! ### Words of both widths -/

/-- A division of words is guarded as one of numbers, if its result follows. -/
theorem map_guarded [DecidableEq α] {number : α → Int} (hinj : ∀ a b, a = b ↔ number a = number b)
    {w : Nat} {zero least minusOne : α} (hzero : number zero = 0)
    (hleast : number least = -2 ^ (w - 1)) (hminus : number minusOne = -1) {l r s : α} {n : Int}
    (hs : ¬ (l = least ∧ r = minusOne) → number s = n) :
    (if r = zero then .error .divisionByZero
      else if l = least ∧ r = minusOne then .error .overflow
      else .ok s : Except ValueFault α).map number =
        Arithmetic.guarded w (number l) (number r) n := by
  have hr : r = zero ↔ number r = 0 := by rw [hinj, hzero]
  have hrange : (l = least ∧ r = minusOne) ↔ Overflows w (number l) (number r) := by
    rw [hinj l, hinj r, hleast, hminus, Overflows]
  rw [Arithmetic.guarded]
  by_cases hdivisor : r = zero
  · rw [if_pos hdivisor, if_pos (hr.mp hdivisor)]
    rfl
  rw [if_neg hdivisor, if_neg (mt hr.mpr hdivisor)]
  by_cases hoverflow : l = least ∧ r = minusOne
  · rw [if_pos hoverflow, if_pos (hrange.mp hoverflow)]
    rfl
  rw [if_neg hoverflow, if_neg (mt hrange.mpr hoverflow), ← hs hoverflow]
  rfl

theorem onInt_map_toInt (op : Arithmetic) (l r : Int32) :
    (op.onInt l r).map Int32.toInt = op.onNumbers 32 l.toInt r.toInt := by
  have hguarded {s : Int32} {n : Int} := map_guarded (l := l) (r := r) (s := s) (n := n) (w := 32)
    (fun _ _ => Int32.toInt_inj.symm) Int32.toInt_zero Int32.toInt_minValue
    (show (-1 : Int32).toInt = -1 from rfl)
  cases op with
  | add => exact congrArg Except.ok (Int32.toInt_add l r)
  | subtract => exact congrArg Except.ok (Int32.toInt_sub l r)
  | multiply => exact congrArg Except.ok (Int32.toInt_mul l r)
  | divide =>
      apply hguarded
      intro hrange
      -- Either operand alone rules out the one quotient that does not fit.
      by_cases hl : l = Int32.minValue
      · exact Int32.toInt_div_of_ne_right l r (fun hr => hrange ⟨hl, hr⟩)
      · exact Int32.toInt_div_of_ne_left l r hl
  | remainder => exact hguarded fun _ => Int32.toInt_mod l r

theorem onLong_map_toInt (op : Arithmetic) (l r : Int64) :
    (op.onLong l r).map Int64.toInt = op.onNumbers 64 l.toInt r.toInt := by
  have hguarded {s : Int64} {n : Int} := map_guarded (l := l) (r := r) (s := s) (n := n) (w := 64)
    (fun _ _ => Int64.toInt_inj.symm) Int64.toInt_zero Int64.toInt_minValue
    (show (-1 : Int64).toInt = -1 from rfl)
  cases op with
  | add => exact congrArg Except.ok (Int64.toInt_add l r)
  | subtract => exact congrArg Except.ok (Int64.toInt_sub l r)
  | multiply => exact congrArg Except.ok (Int64.toInt_mul l r)
  | divide =>
      apply hguarded
      intro hrange
      by_cases hl : l = Int64.minValue
      · exact Int64.toInt_div_of_ne_right l r (fun hr => hrange ⟨hl, hr⟩)
      · exact Int64.toInt_div_of_ne_left l r hl
  | remainder => exact hguarded fun _ => Int64.toInt_mod l r

/-! ### Shifts -/

section shifts

variable {w : Nat} (x : BitVec w)

theorem toInt_shiftLeft (n : Nat) : (x <<< n).toInt = (x.toInt * 2 ^ n).bmod (2 ^ w) := by
  -- Shifting is stated of the unsigned number, which is the signed one up to the width.
  rw [BitVec.toInt_shiftLeft, Nat.shiftLeft_eq, BitVec.toInt_eq_toNat_bmod x, Int.bmod_mul_bmod]
  push_cast
  rfl

theorem toInt_sshiftRight (n : Nat) : (x.sshiftRight n).toInt = x.toInt / 2 ^ n := by
  rw [BitVec.toInt_sshiftRight, Int.shiftRight_eq_div_pow]
  push_cast
  rfl

/-- Where `m` divides the number of words, signed and unsigned numbers have the same
residue. -/
theorem toNat_mod_eq_toInt {m : Nat} (hm : m ∣ 2 ^ w) : x.toNat % m = (x.toInt % m).toNat := by
  have hmod : x.toInt % (2 ^ w : Nat) = x.toNat % (2 ^ w : Nat) := by
    rw [BitVec.toInt_eq_toNat_bmod, Int.bmod_emod]
  have hresidue : x.toInt % m = (x.toNat : Int) % m := by
    have hdvd : (m : Int) ∣ (2 ^ w : Nat) := Int.natCast_dvd_natCast.mpr hm
    rw [← Int.emod_emod_of_dvd x.toInt hdvd, hmod, Int.emod_emod_of_dvd _ hdvd]
  rw [hresidue]
  exact (Int.toNat_natCast _).symm

theorem masked_eq_mod {width : UInt32} {k : Nat} (hwidth : (width - 1).toNat = 2 ^ k - 1)
    (count : UInt32) : Bitwise.masked width count = count.toNat % 2 ^ k := by
  rw [Bitwise.masked, UInt32.toNat_and, hwidth, Nat.and_two_pow_sub_one_eq_mod]

end shifts

/-- A count is taken modulo the width, whatever its sign. -/
theorem masked_int (r : Int32) : Bitwise.masked 32 r.toUInt32 = int.count r := by
  calc Bitwise.masked 32 r.toUInt32
      = r.toUInt32.toNat % 2 ^ 5 := masked_eq_mod (by decide) _
    _ = int.count r := toNat_mod_eq_toInt r.toBitVec (by decide)

/-- The bits that are cut off a count are multiples of the width. -/
theorem masked_long (r : Int64) : Bitwise.masked 64 r.toUInt64.toUInt32 = long.count r := by
  calc Bitwise.masked 64 r.toUInt64.toUInt32
      = r.toUInt64.toUInt32.toNat % 2 ^ 6 := masked_eq_mod (by decide) _
    _ = r.toUInt64.toNat % 2 ^ 6 := by
        rw [UInt64.toNat_toUInt32, Nat.mod_mod_of_dvd _ (by decide)]
    _ = long.count r := toNat_mod_eq_toInt r.toBitVec (by decide)

theorem follows_int : int.Follows where
  positive := by decide
  arithmetic op l r := ⟨op.onInt l r, rfl, onInt_map_toInt op l r⟩
  shiftLeft l r := by
    rw [← masked_int]
    exact ⟨_, rfl, toInt_shiftLeft l.toBitVec _⟩
  shiftRight l r := by
    rw [← masked_int]
    exact ⟨_, rfl, toInt_sshiftRight l.toBitVec _⟩

theorem follows_long : long.Follows where
  positive := by decide
  arithmetic op l r := ⟨op.onLong l r, rfl, onLong_map_toInt op l r⟩
  shiftLeft l r := by
    rw [← masked_long]
    exact ⟨_, rfl, toInt_shiftLeft l.toBitVec _⟩
  shiftRight l r := by
    rw [← masked_long]
    exact ⟨_, rfl, toInt_sshiftRight l.toBitVec _⟩

end WordType

/-- The operators on whole numbers are exact at both widths. -/
theorem onValues_exact :
    (∀ l r : Int32, WordType.int.Exact l r) ∧ ∀ l r : Int64, WordType.long.Exact l r :=
  ⟨WordType.follows_int.exactOn, WordType.follows_long.exactOn⟩

example : Arithmetic.onInt .remainder Int32.minValue (-1) = .error .overflow := by decide

example : Bitwise.onLong .shiftLeft 1 (-1) = Int64.minValue := by decide

end SlotScript
