import ExprLang.Eval.Operator
import Mathlib.Data.Rat.Floor
import Mathlib.Tactic.Linarith

/-!
# Division toward the floor

Machine division goes toward zero, and quotient and remainder are moved afterwards if their sign is
not right. The result is the floor of the exact quotient with its remainder, up to wrapping, and
there is one pair of numbers for which the quotient wraps (`Number.floor_division`).
-/

namespace ExprLang.Number

/-! ## Whole numbers of any size -/

/-- A quotient of `a` by `b` and its remainder, which lies between zero and the divisor. -/
structure FloorQuotient (a b q m : Int) : Prop where
  eq : a = q * b + m
  side : 0 ≤ m ∧ m < b ∨ b < m ∧ m ≤ 0

namespace FloorQuotient

variable {a b q m : Int}

/-- There is no other quotient and no other remainder. -/
theorem fdiv_fmod (h : FloorQuotient a b q m) : a.fdiv b = q ∧ a.fmod b = m := by
  have heq : m + b * q = a := by rw [h.eq, Int.mul_comm, Int.add_comm]
  rcases h.side with ⟨hzero, hlt⟩ | ⟨hlt, hzero⟩
  · exact (Int.fdiv_fmod_unique (by omega)).mpr ⟨heq, hzero, hlt⟩
  · exact (Int.fdiv_fmod_unique' (by omega)).mpr ⟨heq, hlt, hzero⟩

/-- The quotient is the floor of the exact one. -/
theorem floor_eq (h : FloorQuotient a b q m) : ⌊(a : ℚ) / b⌋ = q := by
  have hb : (b : ℚ) ≠ 0 := by
    have := h.side
    exact_mod_cast (show b ≠ 0 by omega)
  have hexact : (a : ℚ) / b = q + m / b := by
    rw [h.eq]
    push_cast
    rw [add_div, mul_div_cancel_right₀ _ hb]
  have hpart : 0 ≤ (m : ℚ) / b ∧ (m : ℚ) / b < 1 := by
    rcases h.side with ⟨hzero, hlt⟩ | ⟨hlt, hzero⟩
    · have hpos : (0 : ℚ) < b := by exact_mod_cast (show 0 < b by omega)
      exact ⟨div_nonneg (by exact_mod_cast hzero) hpos.le,
        (div_lt_one hpos).mpr (by exact_mod_cast hlt)⟩
    · have hneg : (b : ℚ) < 0 := by exact_mod_cast (show b < 0 by omega)
      exact ⟨div_nonneg_of_nonpos (by exact_mod_cast hzero) hneg.le,
        (div_lt_one_of_neg hneg).mpr (by exact_mod_cast hlt)⟩
  rw [Int.floor_eq_iff, hexact]
  exact ⟨by linarith [hpart.1], by linarith [hpart.2]⟩

theorem natAbs_lt (h : FloorQuotient a b q m) : m.natAbs < b.natAbs := by
  have := h.side
  omega

theorem sign_eq (h : FloorQuotient a b q m) : m = 0 ∨ m.sign = b.sign := by
  rcases h.side with ⟨hzero, hlt⟩ | ⟨hlt, hzero⟩
  · rcases hzero.eq_or_lt with heq | hpos
    · exact .inl heq.symm
    · exact .inr (by rw [Int.sign_eq_one_of_pos hpos, Int.sign_eq_one_of_pos (by omega)])
  · rcases hzero.eq_or_lt with heq | hneg
    · exact .inl heq
    · exact .inr (by rw [Int.sign_eq_neg_one_of_neg hneg, Int.sign_eq_neg_one_of_neg (by omega)])

/-- A quotient of a signed number of some width has that width as well, unless the least number is
    divided by minus one. -/
theorem quotient_bounds (h : FloorQuotient a b q m) {n : Int} (hn : 0 < n) (hlow : -n ≤ a)
    (hhigh : a < n) (hpair : ¬ (a = -n ∧ b = -1)) : -n ≤ q ∧ q < n := by
  have heq := h.eq
  rcases h.side with ⟨hzero, hlt⟩ | ⟨hlt, hzero⟩
  · constructor
    · by_contra hq
      nlinarith [mul_le_mul_of_nonneg_right (show q + 1 ≤ -n by omega) (show 0 ≤ b by omega)]
    · by_contra hq
      nlinarith [mul_le_mul_of_nonneg_right (show n ≤ q by omega) (show 0 ≤ b by omega)]
  · constructor
    · by_contra hq
      nlinarith [mul_le_mul_of_nonpos_right (show q + 1 ≤ -n by omega) (show b ≤ 0 by omega)]
    · by_contra hq
      have hprod := mul_le_mul_of_nonpos_right (show n ≤ q by omega) (show b ≤ 0 by omega)
      rcases (show b = -1 ∨ b ≤ -2 by omega) with rfl | hb
      · exact hpair ⟨by omega, rfl⟩
      · nlinarith

end FloorQuotient

/-- A remainder toward zero lies on the side of zero that the dividend is on, nearer to it than the
    divisor. -/
theorem tmod_side (a : Int) {b : Int} (hb : b ≠ 0) :
    (a.tmod b).natAbs < b.natAbs ∧ (0 ≤ a → 0 ≤ a.tmod b) ∧ (a < 0 → a.tmod b ≤ 0) := by
  refine ⟨?_, Int.tmod_nonneg b, fun ha => ?_⟩
  · rw [Int.natAbs_tmod]
    exact Nat.mod_lt _ (Int.natAbs_pos.mpr hb)
  · have hneg := Int.tmod_nonneg b (show 0 ≤ -a by omega)
    rw [Int.neg_tmod] at hneg
    omega

/-- Division toward zero is corrected if its remainder is not on the divisor's side of zero. -/
theorem floorQuotient_of_tdiv (a : Int) {b : Int} (hb : b ≠ 0) :
    (a.tmod b ≠ 0 ∧ ¬ (a.tmod b < 0 ↔ b < 0) →
      FloorQuotient a b (a.tdiv b - 1) (a.tmod b + b)) ∧
    (¬ (a.tmod b ≠ 0 ∧ ¬ (a.tmod b < 0 ↔ b < 0)) →
      FloorQuotient a b (a.tdiv b) (a.tmod b)) := by
  have heq := Int.tdiv_mul_add_tmod a b
  obtain ⟨hlt, -, -⟩ := tmod_side a hb
  constructor
  · rintro ⟨hne, hside⟩
    exact ⟨by rw [sub_mul]; omega, by omega⟩
  · intro hside
    exact ⟨heq.symm, by omega⟩

/-! ## Machine numbers -/

section Machine

variable {a b : Int64}

theorem toInt_ne_zero (hb : b ≠ 0) : b.toInt ≠ 0 := fun h => hb (Int64.toInt_inj.mp h)

theorem div_eq_ofInt (a b : Int64) : a / b = Int64.ofInt (a.toInt.tdiv b.toInt) := by
  rw [Int64.ofInt_tdiv (Int64.minValue_le_toInt a) (Int64.toInt_le a) (Int64.minValue_le_toInt b)
    (Int64.toInt_le b), Int64.ofInt_toInt, Int64.ofInt_toInt]

theorem mod_eq_ofInt (a b : Int64) : a % b = Int64.ofInt (a.toInt.tmod b.toInt) := by
  rw [← Int64.toInt_mod, Int64.ofInt_toInt]

theorem mod_ne_zero_iff : a % b ≠ 0 ↔ a.toInt.tmod b.toInt ≠ 0 := by
  rw [← Int64.toInt_mod, ne_eq, ne_eq, ← Int64.toInt_inj]
  rfl

theorem sides_differ_iff {m : Int64} : decide (m < 0) ≠ decide (b < 0) ↔
    ¬ (m.toInt < 0 ↔ b.toInt < 0) := by
  rw [ne_eq, decide_eq_decide, Int64.lt_iff_toInt_lt, Int64.lt_iff_toInt_lt]
  rfl

/-- The corrected quotient is the exact one, up to wrapping. -/
theorem floorDiv_eq (hb : b ≠ 0) : floorDiv a b = Int64.ofInt (a.toInt.fdiv b.toInt) := by
  have hb' := toInt_ne_zero hb
  obtain ⟨hmoved, hkept⟩ := floorQuotient_of_tdiv a.toInt hb'
  obtain ⟨-, hpos, hneg⟩ := tmod_side a.toInt hb'
  have hcond : a % b ≠ 0 ∧ decide (a < 0) ≠ decide (b < 0) ↔
      a.toInt.tmod b.toInt ≠ 0 ∧ ¬ (a.toInt.tmod b.toInt < 0 ↔ b.toInt < 0) := by
    rw [mod_ne_zero_iff, sides_differ_iff]
    omega
  unfold floorDiv
  simp only [hcond]
  split
  · next h => rw [(hmoved h).fdiv_fmod.1, Int64.ofInt_sub, div_eq_ofInt]; rfl
  · next h => rw [(hkept h).fdiv_fmod.1, div_eq_ofInt]

theorem floorMod_eq (hb : b ≠ 0) : floorMod a b = Int64.ofInt (a.toInt.fmod b.toInt) := by
  obtain ⟨hmoved, hkept⟩ := floorQuotient_of_tdiv a.toInt (toInt_ne_zero hb)
  have hcond : a % b ≠ 0 ∧ decide (a % b < 0) ≠ decide (b < 0) ↔
      a.toInt.tmod b.toInt ≠ 0 ∧ ¬ (a.toInt.tmod b.toInt < 0 ↔ b.toInt < 0) := by
    rw [mod_ne_zero_iff, sides_differ_iff, Int64.toInt_mod]
  unfold floorMod
  simp only [hcond]
  split
  · next h =>
    rw [(hmoved h).fdiv_fmod.2, Int64.ofInt_add, Int64.ofInt_toInt, mod_eq_ofInt]
  · next h => rw [(hkept h).fdiv_fmod.2, mod_eq_ofInt]

theorem floorQuotient_exact (a : Int) {b : Int} (hb : b ≠ 0) :
    FloorQuotient a b (a.fdiv b) (a.fmod b) := by
  obtain ⟨hmoved, hkept⟩ := floorQuotient_of_tdiv a hb
  by_cases h : a.tmod b ≠ 0 ∧ ¬ (a.tmod b < 0 ↔ b < 0)
  · have hq := hmoved h
    rwa [hq.fdiv_fmod.1, hq.fdiv_fmod.2]
  · have hq := hkept h
    rwa [hq.fdiv_fmod.1, hq.fdiv_fmod.2]

end Machine

/-- For every divisor but zero, the remainder is the exact one toward the floor, smaller than the
    divisor and of its sign, and the quotient is the floor of the exact quotient. It wraps for the
    least number divided by minus one alone. What the operators `/` and `%` make of two numbers
    gives the first of them back when it is put together again by `*` and `+`. -/
theorem floor_division (a b : Int64) (hb : b ≠ 0) :
    (floorMod a b).toInt = a.toInt.fmod b.toInt ∧
    (floorMod a b).toInt.natAbs < b.toInt.natAbs ∧
    ((floorMod a b).toInt = 0 ∨ (floorMod a b).toInt.sign = b.toInt.sign) ∧
    (floorDiv a b).toInt =
      (if a = Int64.minValue ∧ b = -1 then Int64.minValue.toInt
       else ⌊(a.toInt : ℚ) / (b.toInt : ℚ)⌋) ∧
    floorDiv a b * b + floorMod a b = a ∧
    ∃ product, Eval.arithmetic .div (.int a) (.int b) = .ok (.int (floorDiv a b)) ∧
      Eval.arithmetic .mod (.int a) (.int b) = .ok (.int (floorMod a b)) ∧
      Eval.arithmetic .mul (.int (floorDiv a b)) (.int b) = .ok product ∧
      Eval.arithmetic .add product (.int (floorMod a b)) = .ok (.int a) := by
  have hexact := floorQuotient_exact a.toInt (toInt_ne_zero hb)
  have hmod : (floorMod a b).toInt = a.toInt.fmod b.toInt := by
    have := hexact.side
    have := b.le_toInt
    have := b.toInt_lt
    rw [floorMod_eq hb, Int64.toInt_ofInt_of_le (by omega) (by omega)]
  have hlaw : floorDiv a b * b + floorMod a b = a := by
    calc floorDiv a b * b + floorMod a b
        = Int64.ofInt (a.toInt.fdiv b.toInt * b.toInt + a.toInt.fmod b.toInt) := by
          rw [floorDiv_eq hb, floorMod_eq hb, Int64.ofInt_add, Int64.ofInt_mul, Int64.ofInt_toInt]
      _ = a := by rw [← hexact.eq, Int64.ofInt_toInt]
  refine ⟨hmod, hmod ▸ hexact.natAbs_lt, hmod ▸ hexact.sign_eq, ?_, hlaw, .int _, ?_, ?_, rfl, ?_⟩
  · split
    · next h =>
      rw [h.1, h.2]
      rfl
    · next h =>
      have hpair : ¬ (a.toInt = -2 ^ 63 ∧ b.toInt = -1) := by
        rintro ⟨ha, hb⟩
        exact h ⟨Int64.toInt_inj.mp ha, Int64.toInt_inj.mp hb⟩
      obtain ⟨hlow, hhigh⟩ := hexact.quotient_bounds (by decide) a.le_toInt a.toInt_lt hpair
      rw [floorDiv_eq hb, Int64.toInt_ofInt_of_le hlow hhigh, hexact.floor_eq]
  · rw [Eval.arithmetic, Eval.divide, if_neg hb]
  · simp only [Eval.arithmetic, Eval.integral, if_neg hb]
  · rw [Eval.arithmetic, Eval.numeric, hlaw]

/-- The pair for which the quotient wraps. -/
theorem floor_division_least :
    (-1 : Int64) ≠ 0 ∧ (floorMod Int64.minValue (-1)).toInt = 0 ∧
    (floorDiv Int64.minValue (-1)).toInt = Int64.minValue.toInt ∧
    floorDiv Int64.minValue (-1) * (-1) + floorMod Int64.minValue (-1) = Int64.minValue := by
  have hb : (-1 : Int64) ≠ 0 := by decide
  obtain ⟨hmod, -, -, hdiv, hlaw, -⟩ := floor_division Int64.minValue (-1) hb
  exact ⟨hb, hmod, hdiv, hlaw⟩

end ExprLang.Number
