import SlotScript.Proofs.WordArithmetic
import SlotScript.Value.Cast

/-! # Widening

A number of type `int` can be computed with as it is, or as a `long` whose result is cut
back.  The low bits of a sum, a difference, a product and of what is computed bit by bit
depend on the low bits of the operands alone, so cutting to an `int` respects these operators
on all numbers of type `long` (`CutRespects`).  A number that was widened is cut back to itself.
Hence both ways give the same result (`WideningKeeps`); comparisons agree since
widening keeps the order, and divisions since their result is the same number unless it
is out of range.

The main statement is `widening_keeps_and_cut_respects`. -/

namespace SlotScript

/-! ### Casts around an operator -/

/-- The operator on operands that are cast to a type. -/
def BinaryOp.onCast (op : BinaryOp) (t : Ty) (l r : Value) : Except ValueFault Value := do
  op.onValues (← l.cast t) (← r.cast t)

/-- The operator on an operand that is cast to a type. -/
def UnaryOp.onCast (op : UnaryOp) (t : Ty) (v : Value) : Except ValueFault Value := do
  op.onValue (← v.cast t)

/-- A result, cast to an `int`. -/
def cutToInt (result : Except ValueFault Value) : Except ValueFault Value := do
  (← result).cast .int

/-- The operators whose low bits depend on the low bits of the operands alone. -/
def BinaryOp.lowBits : List BinaryOp :=
  [.arithmetic .add, .arithmetic .subtract, .arithmetic .multiply, .bitwise .and, .bitwise .or,
    .bitwise .xor]

/-- The operators whose low bits depend on the low bits of the operand alone. -/
def UnaryOp.lowBits : List UnaryOp := [.negate, .complement]

/-- Computing with two numbers of type `long` and cutting the result is computing with the
numbers cut. -/
structure CutRespects (a b : Int64) : Prop where
  binary : ∀ op ∈ BinaryOp.lowBits, ∃ n : Int32,
    cutToInt (op.onValues (.long a) (.long b)) = .ok (.int n) ∧
      op.onCast .int (.long a) (.long b) = .ok (.int n)
  unary : ∀ op ∈ UnaryOp.lowBits, ∃ n : Int32,
    cutToInt (op.onValue (.long a)) = .ok (.int n) ∧ op.onCast .int (.long a) = .ok (.int n)

/-- Two numbers of type `int` give the same when they are widened. -/
structure WideningKeeps (l r : Int32) : Prop where
  binary : ∀ op ∈ BinaryOp.lowBits, ∃ n : Int32, op.onValues (.int l) (.int r) = .ok (.int n) ∧
    cutToInt (op.onCast .long (.int l) (.int r)) = .ok (.int n)
  unary : ∀ op ∈ UnaryOp.lowBits, ∃ n : Int32, op.onValue (.int l) = .ok (.int n) ∧
    cutToInt (op.onCast .long (.int l)) = .ok (.int n)
  comparison : ∀ op : Comparison, ∃ answer : Bool,
    (BinaryOp.comparison op).onValues (.int l) (.int r) = .ok (.bool answer) ∧
      (BinaryOp.comparison op).onCast .long (.int l) (.int r) = .ok (.bool answer)
  division : ∀ op ∈ Arithmetic.divisions, ∀ v,
    (BinaryOp.arithmetic op).onValues (.int l) (.int r) = .ok v →
      ∃ wide, (BinaryOp.arithmetic op).onCast .long (.int l) (.int r) = .ok wide ∧
        wide.cast .int = .ok v
  divisionByZero : ∀ op ∈ Arithmetic.divisions,
    (BinaryOp.arithmetic op).onValues (.int l) (.int r) = .error .divisionByZero →
      (BinaryOp.arithmetic op).onCast .long (.int l) (.int r) = .error .divisionByZero

/-! ### Cutting -/

theorem cutRespects (a b : Int64) : CutRespects a b where
  binary op hop := by
    simp only [BinaryOp.lowBits, List.mem_cons, List.not_mem_nil, or_false] at hop
    rcases hop with rfl | rfl | rfl | rfl | rfl | rfl
    · exact ⟨_, congrArg (Except.ok ∘ Value.int) (Int64.toInt32_add a b), rfl⟩
    · exact ⟨_, congrArg (Except.ok ∘ Value.int) (Int64.toInt32_sub a b), rfl⟩
    · exact ⟨_, congrArg (Except.ok ∘ Value.int) (Int64.toInt32_mul a b), rfl⟩
    · exact ⟨_, congrArg (Except.ok ∘ Value.int) (Int64.toInt32_and a b), rfl⟩
    · exact ⟨_, congrArg (Except.ok ∘ Value.int) (Int64.toInt32_or a b), rfl⟩
    · exact ⟨_, congrArg (Except.ok ∘ Value.int) (Int64.toInt32_xor a b), rfl⟩
  unary op hop := by
    simp only [UnaryOp.lowBits, List.mem_cons, List.not_mem_nil, or_false] at hop
    rcases hop with rfl | rfl
    · exact ⟨_, congrArg (Except.ok ∘ Value.int) (Int64.toInt32_neg a), rfl⟩
    · exact ⟨_, congrArg (Except.ok ∘ Value.int) (Int64.toInt32_not a), rfl⟩

/-- A widened number is cut back to itself. -/
theorem cast_int_widened (n : Int32) : (Value.long n.toInt64).cast .int = .ok (.int n) :=
  congrArg (Except.ok ∘ Value.int) (Int32.toInt32_toInt64 n)

/-! ### Divisions -/

namespace Arithmetic

/-- In more bits a division has the same outcome, unless it overflows in fewer. -/
theorem onNumbers_wider {v w : Nat} (hv : 0 < v) (hwidth : v < w) {op : Arithmetic}
    (hop : op ∈ Arithmetic.divisions) {l : Int} (hl : -2 ^ (v - 1) ≤ l) (r : Int) :
    op.onNumbers w l r = op.onNumbers v l r ∨ op.onNumbers v l r = .error .overflow := by
  have hpow : (2 : Int) ^ (v - 1) < 2 ^ (w - 1) := by
    have hnat : 2 ^ (v - 1) < 2 ^ (w - 1) := Nat.pow_lt_pow_right (by decide) (by omega)
    exact_mod_cast hnat
  -- The least number of the wider type is out of reach, so only the narrow division overflows.
  have hrange : ¬ Overflows w l r := fun hrange => by
    have hlow := hrange.1
    omega
  have hguarded : ∀ n, guarded w l r n = guarded v l r n ∨ guarded v l r n = .error .overflow := by
    intro n
    rw [guarded, guarded, if_neg hrange]
    by_cases hzero : r = 0
    · simp [hzero]
    · by_cases hnarrow : Overflows v l r
      · simp [hzero, hnarrow]
      · simp [hzero, hnarrow]
  simp only [divisions, List.mem_cons, List.not_mem_nil, or_false] at hop
  rcases hop with rfl | rfl
  · exact hguarded (l.tdiv r)
  · exact hguarded (l.tmod r)

/-- A division of widened numbers gives the same number, unless it overflows as it is. -/
theorem onLong_widened {op : Arithmetic} (hop : op ∈ Arithmetic.divisions)
    (l r : Int32) :
    (op.onLong l.toInt64 r.toInt64).map Int64.toInt = (op.onInt l r).map Int32.toInt ∨
      op.onInt l r = .error .overflow := by
  rw [WordType.onLong_map_toInt, Int32.toInt_toInt64, Int32.toInt_toInt64]
  have hnumbers := WordType.onInt_map_toInt op l r
  rcases onNumbers_wider (v := 32) (w := 64) (by decide) (by decide) hop l.le_toInt r.toInt
    with hsame | hoverflow
  · left
    rw [hsame, hnumbers]
  · right
    rw [hoverflow] at hnumbers
    exact Outcome.map_eq_error.mp hnumbers

section widened

variable {op : Arithmetic} (hop : op ∈ Arithmetic.divisions) {l r : Int32}

include hop

theorem onLong_of_onInt_ok {s : Int32} (h : op.onInt l r = .ok s) :
    op.onLong l.toInt64 r.toInt64 = .ok s.toInt64 := by
  rcases op.onLong_widened hop l r with hsame | hoverflow
  · rw [h] at hsame
    obtain ⟨t, hlong, hnumber⟩ := Outcome.map_eq_ok.mp hsame
    rw [← Int32.toInt_toInt64 s] at hnumber
    rw [hlong, Int64.toInt_inj.mp hnumber]
  · rw [h] at hoverflow
    cases hoverflow

theorem onLong_of_onInt_zero (h : op.onInt l r = .error .divisionByZero) :
    op.onLong l.toInt64 r.toInt64 = .error .divisionByZero := by
  rcases op.onLong_widened hop l r with hsame | hoverflow
  · rw [h] at hsame
    exact Outcome.map_eq_error.mp hsame
  · rw [h] at hoverflow
    cases hoverflow

end widened

end Arithmetic

/-! ### Comparisons -/

theorem Comparison.onValues_widened (op : Comparison) (l r : Int32) :
    ∃ answer, op.onValues (.int l) (.int r) = .ok answer ∧
      op.onValues (.long l.toInt64) (.long r.toInt64) = .ok answer := by
  have heq : (l.toInt64 == r.toInt64) = (l == r) := by
    rw [Bool.eq_iff_iff, beq_iff_eq, beq_iff_eq, ← Int64.toInt_inj, ← Int32.toInt_inj,
      Int32.toInt_toInt64, Int32.toInt_toInt64]
  have hlt {a b : Int32} : decide (a.toInt64 < b.toInt64) = decide (a < b) := by
    rw [decide_eq_decide]
    exact Int32.toInt64_lt
  have hle {a b : Int32} : decide (a.toInt64 ≤ b.toInt64) = decide (a ≤ b) := by
    rw [decide_eq_decide]
    exact Int32.toInt64_le
  cases op with
  | equal => exact ⟨_, rfl, congrArg Except.ok heq⟩
  | notEqual => exact ⟨_, rfl, congrArg (Except.ok ∘ not) heq⟩
  | less => exact ⟨_, rfl, congrArg Except.ok hlt⟩
  | lessEqual => exact ⟨_, rfl, congrArg Except.ok hle⟩
  | greater => exact ⟨_, rfl, congrArg Except.ok hlt⟩
  | greaterEqual => exact ⟨_, rfl, congrArg Except.ok hle⟩

/-! ### Widening -/

/-- Widened operands that are cut again are the operands. -/
theorem BinaryOp.onCast_widened (op : BinaryOp) (l r : Int32) :
    op.onCast .int (.long l.toInt64) (.long r.toInt64) = op.onValues (.int l) (.int r) := by
  rw [onCast, cast_int_widened, cast_int_widened]
  rfl

theorem UnaryOp.onCast_widened (op : UnaryOp) (n : Int32) :
    op.onCast .int (.long n.toInt64) = op.onValue (.int n) := by
  rw [onCast, cast_int_widened]
  rfl

theorem wideningKeeps (l r : Int32) : WideningKeeps l r where
  binary op hop := by
    obtain ⟨n, hcut, hint⟩ := (cutRespects l.toInt64 r.toInt64).binary op hop
    rw [op.onCast_widened] at hint
    exact ⟨n, hint, hcut⟩
  unary op hop := by
    obtain ⟨n, hcut, hint⟩ := (cutRespects l.toInt64 r.toInt64).unary op hop
    rw [op.onCast_widened] at hint
    exact ⟨n, hint, hcut⟩
  comparison op := by
    obtain ⟨answer, hint, hlong⟩ := op.onValues_widened l r
    exact ⟨answer, congrArg (Except.map Value.bool) hint, congrArg (Except.map Value.bool) hlong⟩
  division op hop v hv := by
    obtain ⟨s, hint, rfl⟩ := Outcome.map_eq_ok.mp hv
    have hlong := Arithmetic.onLong_of_onInt_ok hop hint
    exact ⟨.long s.toInt64, congrArg (Except.map Value.long) hlong, cast_int_widened s⟩
  divisionByZero op hop h := by
    have hlong := Arithmetic.onLong_of_onInt_zero hop (Outcome.map_eq_error.mp h)
    exact congrArg (Except.map Value.long) hlong

/-- Widening to `long` does not change what is computed with numbers of type `int`, and cutting
to `int` respects the operators on all numbers of type `long` that work on low bits. -/
theorem widening_keeps_and_cut_respects :
    (∀ l r : Int32, WideningKeeps l r) ∧ ∀ a b : Int64, CutRespects a b :=
  ⟨wideningKeeps, cutRespects⟩

end SlotScript
