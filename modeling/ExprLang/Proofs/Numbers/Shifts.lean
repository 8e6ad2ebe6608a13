import ExprLang.Proofs.Numbers.Division
import ExprLang.Proofs.Numbers.Powers

/-!
# Shifts as arithmetic

The machine takes the count of a shift modulo the width, so that counts from the width on are caught
before. What remains are shifts by any count at all: to the left a product with a power of two, to
the right with copies of the sign a quotient toward the floor, and to the right with zeros the same
without the copies of the sign (`Eval.shifts_agree`).
-/

namespace ExprLang

namespace Number

/-! ## Words -/

section Words

variable {w : Nat} (x : BitVec w) {k : Nat}

/-- From the width on all bits are copies of the sign. -/
theorem sshiftRight_of_width_le (hk : w ≤ k) :
    x.sshiftRight k = if x.msb then BitVec.allOnes w else 0 := by
  apply BitVec.eq_of_getLsbD_eq
  intro i hi
  have hout : ¬ k + i < w := by omega
  rw [BitVec.getLsbD_sshiftRight, if_neg hout]
  cases x.msb with
  | true => simp [hi]
  | false => simp

/-- A mask cuts off the copies of the sign. -/
theorem ushiftRight_eq_and (hk : k ≤ w) :
    x >>> k = x.sshiftRight k &&& ~~~(BitVec.allOnes w <<< (w - k)) := by
  apply BitVec.eq_of_getLsbD_eq
  intro i hi
  rw [BitVec.getLsbD_ushiftRight, BitVec.getLsbD_and, BitVec.getLsbD_sshiftRight,
    BitVec.getLsbD_not, BitVec.getLsbD_shiftLeft, BitVec.getLsbD_allOnes]
  by_cases hin : k + i < w
  · have hmask : i < w - k := by omega
    simp [hi, hin, hmask]
  · have hmask : ¬ i < w - k := by omega
    have hones : i - (w - k) < w := by omega
    simp [hi, hin, hmask, hones, BitVec.getLsbD_of_ge _ _ (Nat.le_of_not_lt hin)]

end Words

section Shifts

variable (l : Int64) {r : Int64} (hr : 0 ≤ r.toInt)

theorem lt_width_iff : r < 64 ↔ r.toInt < 64 := Int64.lt_iff_toInt_lt

theorem width_le_count (hge : ¬ r < 64) : 64 ≤ r.toInt.toNat := by
  rw [lt_width_iff] at hge
  omega

include hr

theorem msb_count : r.toBitVec.msb = false := by
  rw [BitVec.msb_eq_toInt, Int64.toInt_toBitVec, decide_eq_false (Int.not_lt.mpr hr)]

theorem toNat_count : r.toBitVec.toNat = r.toInt.toNat := by
  rw [← Int64.toInt_toBitVec, BitVec.toInt_eq_toNat_of_msb (msb_count hr), Int.toNat_natCast]

/-- A count below the width is what the machine shifts by. -/
theorem toNat_count_mod (hlt : r < 64) : (r.toBitVec % 64).toNat = r.toInt.toNat := by
  rw [BitVec.toNat_umod, toNat_count hr]
  apply Nat.mod_eq_of_lt
  have := lt_width_iff.mp hlt
  show _ < 64
  omega

theorem toNat_count_smod (hlt : r < 64) : (r.toBitVec.smod 64).toNat = r.toInt.toNat := by
  have hwidth : (64 : BitVec 64).msb = false := by decide
  rw [BitVec.toNat_smod, msb_count hr, hwidth]
  exact toNat_count_mod hr hlt

theorem toBitVec_shiftLeft : (shiftLeft l r).toBitVec = l.toBitVec <<< r.toInt.toNat := by
  rw [shiftLeft]
  split
  · next hlt =>
    rw [Int64.toBitVec_shiftLeft, BitVec.shiftLeft_eq', toNat_count_smod hr hlt]
  · next hge =>
    rw [BitVec.shiftLeft_eq_zero (width_le_count hge)]
    rfl

theorem toBitVec_shiftRight :
    (shiftRight l r).toBitVec = l.toBitVec.sshiftRight r.toInt.toNat := by
  rw [shiftRight]
  split
  · next hlt =>
    rw [Int64.toBitVec_shiftRight, BitVec.sshiftRight_eq', toNat_count_smod hr hlt]
  · next hge =>
    have hmsb : l.toBitVec.msb = decide (l < 0) := by
      rw [BitVec.msb_eq_toInt, Int64.toInt_toBitVec, decide_eq_decide, Int64.lt_iff_toInt_lt]
      rfl
    rw [sshiftRight_of_width_le _ (width_le_count hge), hmsb]
    by_cases hneg : l < 0
    · rw [if_pos hneg, if_pos (decide_eq_true hneg)]
      rfl
    · rw [if_neg hneg, if_neg (by simpa using hneg)]
      rfl

theorem toBitVec_shiftRightUnsigned :
    (shiftRightUnsigned l r).toBitVec = l.toBitVec >>> r.toInt.toNat := by
  rw [shiftRightUnsigned]
  split
  · next hlt =>
    show l.toBitVec >>> (r.toBitVec % 64) = _
    rw [BitVec.ushiftRight_eq', toNat_count_mod hr hlt]
  · next hge =>
    rw [BitVec.ushiftRight_eq_zero (width_le_count hge)]
    rfl

/-! ## Numbers -/

theorem toInt_width_sub (hle : r.toInt ≤ 64) : (64 - r).toInt = 64 - r.toInt := by
  rw [Int64.toInt_sub]
  apply Int.bmod_eq_of_le
  · show -9223372036854775808 ≤ 64 - r.toInt
    omega
  · show 64 - r.toInt < 9223372036854775808
    omega

theorem shiftRightUnsigned_eq_and (hle : r.toInt ≤ 64) :
    shiftRightUnsigned l r = shiftRight l r &&& ~~~shiftLeft (-1) (64 - r) := by
  have hplaces := toInt_width_sub hr hle
  have hones : (-1 : Int64).toBitVec = BitVec.allOnes 64 := rfl
  rw [← Int64.toBitVec_inj, Int64.toBitVec_and, Int64.toBitVec_not, toBitVec_shiftRight l hr,
    toBitVec_shiftRightUnsigned l hr, toBitVec_shiftLeft (-1) (by omega), hones, hplaces,
    Int.toNat_sub'' (by decide) hr, ushiftRight_eq_and _ (by omega)]
  rfl

theorem shiftLeft_eq_mul : shiftLeft l r = l * intPow 2 r.toInt.toNat := by
  have hpower : (intPow 2 r.toInt.toNat).toBitVec = BitVec.twoPow 64 r.toInt.toNat := by
    rw [intPow_two, Int64.toBitVec_ofInt]
    apply BitVec.eq_of_toNat_eq
    rw [BitVec.toNat_twoPow]
    exact BitVec.toNat_ofNat _ _
  rw [← Int64.toBitVec_inj, toBitVec_shiftLeft l hr, Int64.toBitVec_mul, hpower,
    BitVec.shiftLeft_eq_mul_twoPow]

theorem toInt_shiftRight : (shiftRight l r).toInt = l.toInt / 2 ^ r.toInt.toNat := by
  rw [← Int64.toInt_toBitVec, toBitVec_shiftRight l hr, BitVec.toInt_sshiftRight,
    Int64.toInt_toBitVec, Int.shiftRight_eq_div_pow]
  push_cast
  rfl

/-- A quotient by a power of two that is a positive number of the width. -/
theorem shiftRight_eq_floorDiv (hle : r.toInt ≤ 62) :
    intPow 2 r.toInt.toNat ≠ 0 ∧ shiftRight l r = floorDiv l (intPow 2 r.toInt.toNat) := by
  have hpos : (0 : Int) < 2 ^ r.toInt.toNat := pow_pos (by decide) _
  have hpower : (intPow 2 r.toInt.toNat).toInt = 2 ^ r.toInt.toNat := by
    have hmax : (2 : Int) ^ r.toInt.toNat ≤ 2 ^ 62 := pow_le_pow_right₀ (by decide) (by omega)
    rw [intPow_two]
    exact Int64.toInt_ofInt_of_le (by omega) (by omega)
  have hne : intPow 2 r.toInt.toNat ≠ 0 := by
    intro hzero
    rw [hzero] at hpower
    exact hpos.ne hpower
  refine ⟨hne, ?_⟩
  rw [floorDiv_eq hne, hpower, Int.fdiv_eq_ediv_of_nonneg _ hpos.le, ← toInt_shiftRight l hr,
    Int64.ofInt_toInt]

end Shifts

end Number

namespace Eval

open Number

/-! ## Operators -/

/-- Whole numbers are neither texts nor arrays, and the store is not asked. -/
theorem applyArith_int (op : ArithOp) (a b : Int64) :
    applyArith op (.int a) (.int b) = EvalM.check (arithmetic op (.int a) (.int b)) := by
  cases op <;> rfl

section Counts

variable {r : Int64} (hr : 0 ≤ r.toInt)
include hr

/-- A count that is not negative is not refused. -/
theorem applyArith_shift {op : ArithOp} {f : Int64 → Int64 → Int64}
    (hop : arithmetic op = shift op f) (l : Int64) :
    applyArith op (.int l) (.int r) = pure (.int (f l r)) := by
  have hnonneg : ¬ r < 0 := by
    rw [Int64.lt_iff_toInt_lt]
    exact Int.not_lt.mpr hr
  rw [applyArith_int, hop, shift, integral, if_neg hnonneg]
  rfl

theorem applyArith_pow (base : Int64) :
    applyArith .pow (.int base) (.int r) = pure (.int (intPow base r.toInt.toNat)) := by
  rw [applyArith_int, arithmetic_pow base hr]
  rfl

end Counts

/-- Shifts of every number `l`: by every count `r` that is not negative, a shift to the left is the
    product with `2 ** r`. A shift to the right is the quotient by `2 ** r`, as far as that is a
    positive number, and one that fills with zeros is the same but for the copies of the sign. From
    the width on nothing is left but the sign, or nothing at all. -/
theorem shifts_agree (l r : Int64) (hr : 0 ≤ r.toInt) :
    (applyArith .shiftLeft (.int l) (.int r) = pure (.int (shiftLeft l r)) ∧
      (do
        let power ← applyArith .pow (.int 2) (.int r)
        applyArith .mul (.int l) power) = pure (.int (shiftLeft l r))) ∧
    (r.toInt ≤ 62 →
      applyArith .shiftRight (.int l) (.int r) = pure (.int (shiftRight l r)) ∧
      (do
        let power ← applyArith .pow (.int 2) (.int r)
        applyArith .div (.int l) power) = pure (.int (shiftRight l r))) ∧
    (r.toInt ≤ 64 →
      applyArith .shiftRightUnsigned (.int l) (.int r) = pure (.int (shiftRightUnsigned l r)) ∧
      (do
        let shifted ← applyArith .shiftRight (.int l) (.int r)
        let places ← applyArith .sub (.int 64) (.int r)
        let ones ← applyArith .shiftLeft (.int (-1)) places
        let mask ← applyUnary .bitNot ones
        applyArith .bitAnd shifted mask) = pure (.int (shiftRightUnsigned l r))) ∧
    (64 ≤ r.toInt →
      applyArith .shiftRight (.int l) (.int r) = pure (.int (if l.toInt < 0 then -1 else 0)) ∧
      applyArith .shiftRightUnsigned (.int l) (.int r) = pure (.int 0)) := by
  have hpow := applyArith_pow hr 2
  have hleft : applyArith .shiftLeft (.int l) (.int r) = _ := applyArith_shift hr rfl l
  have hright : applyArith .shiftRight (.int l) (.int r) = _ := applyArith_shift hr rfl l
  have hunsigned : applyArith .shiftRightUnsigned (.int l) (.int r) = _ :=
    applyArith_shift hr rfl l
  refine ⟨⟨hleft, ?_⟩, fun hle => ⟨hright, ?_⟩, fun hle => ⟨hunsigned, ?_⟩, fun hge => ?_⟩
  · rw [hpow, shiftLeft_eq_mul l hr]
    rfl
  · obtain ⟨hne, hdiv⟩ := shiftRight_eq_floorDiv l hr hle
    rw [hpow, hdiv]
    show applyArith .div (.int l) (.int _) = _
    rw [applyArith_int, arithmetic, divide, if_neg hne]
    rfl
  · have hplaces : 0 ≤ (64 - r).toInt := by
      rw [toInt_width_sub hr hle]
      omega
    have hones : applyArith .shiftLeft (.int (-1)) (.int (64 - r)) = _ :=
      applyArith_shift hplaces rfl (-1)
    rw [hright, shiftRightUnsigned_eq_and l hr hle]
    show (do
      let ones ← applyArith .shiftLeft (.int (-1)) (.int (64 - r))
      let mask ← applyUnary .bitNot ones
      applyArith .bitAnd (.int (shiftRight l r)) mask) = _
    rw [hones]
    rfl
  · have hout : ¬ r < 64 := mt lt_width_iff.mp (Int.not_lt.mpr hge)
    have hneg : l < 0 ↔ l.toInt < 0 := Int64.lt_iff_toInt_lt
    rw [hright, hunsigned, shiftRight, shiftRightUnsigned, if_neg hout, if_neg hout]
    simp only [hneg, and_self]

/-- Of the least number, its highest bit, its quotient by `2 ** 62` and its sign. -/
theorem shifts_agree_least :
    (0 ≤ (63 : Int64).toInt ∧ (63 : Int64).toInt ≤ 64 ∧
      applyArith .shiftRightUnsigned (.int Int64.minValue) (.int 63) = pure (.int 1)) ∧
    (0 ≤ (62 : Int64).toInt ∧ (62 : Int64).toInt ≤ 62 ∧
      (do
        let power ← applyArith .pow (.int 2) (.int 62)
        applyArith .div (.int Int64.minValue) power) = pure (.int (-2))) ∧
    64 ≤ Int64.maxValue.toInt ∧
      applyArith .shiftRight (.int Int64.minValue) (.int Int64.maxValue) = pure (.int (-1)) := by
  obtain ⟨-, -, hmasked, -⟩ := shifts_agree Int64.minValue 63 (by decide)
  obtain ⟨-, hdivided, -, -⟩ := shifts_agree Int64.minValue 62 (by decide)
  obtain ⟨-, -, -, hsign⟩ := shifts_agree Int64.minValue Int64.maxValue (by decide)
  exact ⟨⟨by decide, by decide, (hmasked (by decide)).1⟩,
    ⟨by decide, by decide, (hdivided (by decide)).2⟩, by decide, (hsign (by decide)).1⟩

end Eval

end ExprLang
