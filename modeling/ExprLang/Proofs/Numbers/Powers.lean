import ExprLang.Eval.Operator
import ExprLang.Proofs.Numbers.Doubles

/-!
# Powers of whole numbers

Powers are computed by repeated squaring, and both the squares and the products wrap at almost every
step. The result is the signed residue of the exact power all the same (`Number.intPow_residue`),
since every number that is met is the residue of an exact one.
-/

namespace ExprLang

namespace Number

/-! ## Squaring -/

/-- A power is one of the square, with a factor over if the exponent is odd. -/
theorem pow_eq_square_pow (b : Int) (n : Nat) :
    b ^ n = if n % 2 = 1 then b * (b * b) ^ (n / 2) else (b * b) ^ (n / 2) := by
  have hsquare : (b * b) ^ (n / 2) = b ^ (2 * (n / 2)) := by rw [pow_mul, pow_two]
  split
  · next hodd =>
    rw [hsquare, ← pow_succ']
    exact congrArg (b ^ ·) (by omega)
  · next heven =>
    rw [hsquare]
    exact congrArg (b ^ ·) (by omega)

/-- The power of the residue of a number is the residue of its power. -/
theorem intPow_ofInt (b : Int) (n : Nat) : intPow (Int64.ofInt b) n = Int64.ofInt (b ^ n) := by
  -- what is squared in each round is the residue of an exact square
  induction n using Nat.strongRecOn generalizing b with
  | ind n ih =>
    rw [intPow]
    split
    · next hzero =>
      rw [hzero, pow_zero]
      rfl
    · next hne =>
      have hrest := ih (n / 2) (by omega) (b * b)
      rw [Int64.ofInt_mul] at hrest
      rw [hrest, pow_eq_square_pow b n]
      split
      · rw [Int64.ofInt_mul b]
      · rfl

theorem intPow_eq_ofInt (base : Int64) (n : Nat) :
    intPow base n = Int64.ofInt (base.toInt ^ n) := by
  rw [← intPow_ofInt, Int64.ofInt_toInt]

theorem intPow_two (n : Nat) : intPow 2 n = Int64.ofInt (2 ^ n) := intPow_ofInt 2 n

end Number

/-! ## The operator -/

/-- A number that is not negative is not below zero as a double either. -/
theorem Double.not_less_zero {n : Int64} (h : 0 ≤ n.toInt) :
    (Double.ofInt n.toInt).less (Double.ofInt 0) = false := by
  have hkey : (Double.ofInt n.toInt).orderKey = Number.Format.double.round n.toInt.natAbs 1 := by
    rw [Double.orderKey_ofInt (Number.natAbs_toInt_le n), decide_eq_false (Int.not_lt.mpr h)]
    rfl
  have hzero : (Double.ofInt 0).orderKey = 0 := by decide +kernel
  rw [Double.less, hkey, hzero, decide_eq_false (Int.not_lt.mpr (Int.natCast_nonneg _)),
    Bool.and_false]

namespace Number

theorem arithmetic_pow (base : Int64) {exponent : Int64} (h : 0 ≤ exponent.toInt) :
    Eval.arithmetic .pow (.int base) (.int exponent) =
      .ok (.int (intPow base exponent.toInt.toNat)) := by
  simp only [Eval.arithmetic, Eval.power, Value.toDouble?, Double.not_less_zero h, Bool.and_false,
    Bool.false_eq_true, if_false, if_pos h]

/-- Repeated squaring gives the signed residue modulo `2 ^ 64` of the exact power, for every base
    and every exponent, and this is what the operator `**` makes of two numbers of which the second
    is not negative. -/
theorem intPow_residue (base : Int64) :
    (∀ n : Nat, (intPow base n).toInt = (base.toInt ^ n).bmod (2 ^ 64)) ∧
    ∀ exponent : Int64, 0 ≤ exponent.toInt →
      Eval.arithmetic .pow (.int base) (.int exponent) =
        .ok (.int (intPow base exponent.toInt.toNat)) := by
  refine ⟨fun n => ?_, fun exponent h => arithmetic_pow base h⟩
  rw [intPow_eq_ofInt, Int64.toInt_ofInt]
  rfl

/-- The exact power is far below the least number, and its residue is positive. -/
theorem intPow_residue_wrapped :
    0 ≤ (41 : Int64).toInt ∧ (intPow (-3) 41).toInt = 420491770248316829 ∧
    Eval.arithmetic .pow (.int (-3)) (.int 41) = .ok (.int (intPow (-3) 41)) := by
  obtain ⟨hresidue, hoperator⟩ := intPow_residue (-3)
  exact ⟨by decide, (hresidue 41).trans (by decide), hoperator 41 (by decide)⟩

end Number

end ExprLang
