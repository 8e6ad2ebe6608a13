import ExprLang.Double
import ExprLang.Proofs.Numbers.Notation

/-!
# Doubles and their texts

A finite double is the number with its sign, significand and exponent. Whatever the layout, its text
is read as the same double (`Double.read?_write`).
-/

namespace ExprLang

namespace Number

theorem digitText_length_spec {n : Nat} (hn : 0 < n) :
    10 ^ ((digitText n).length - 1) ≤ n ∧ n < 10 ^ (digitText n).length := by
  have hpos : 0 < (digitText n).length := Nat.length_toDigits_pos
  have hle (k : Nat) (hk : 0 < k) : (digitText n).length ≤ k ↔ n < 10 ^ k :=
    Nat.length_toDigits_le_iff (by decide) hk
  refine ⟨?_, (hle _ hpos).mp le_rfl⟩
  by_cases hone : (digitText n).length = 1
  · rw [hone]
    exact hn
  · rw [← not_lt, ← hle _ (by omega)]
    omega

/-- The order of a decimal tells its size. -/
theorem Decimal.order_spec {d : Decimal} (hd : 0 < d.digits) :
    (10 : ℚ) ^ d.order ≤ d.value ∧ d.value < 10 ^ (d.order + 1) := by
  obtain ⟨hle, hlt⟩ := digitText_length_spec hd
  have hpos : 0 < (digitText d.digits).length := Nat.length_toDigits_pos
  have hten : (0 : ℚ) < 10 ^ d.exponent := by positivity
  have hlow : d.order = ((digitText d.digits).length - 1 : Nat) + d.exponent := by
    rw [order, Nat.cast_sub hpos]
    push_cast
    ring
  have hhigh : d.order + 1 = ((digitText d.digits).length : Nat) + d.exponent := by
    rw [order]
    ring
  rw [hlow, ← hlow, hhigh, hlow, zpow_add₀ (by norm_num), zpow_add₀ (by norm_num), zpow_natCast,
    zpow_natCast, value]
  constructor
  · exact mul_le_mul_of_nonneg_right (by exact_mod_cast hle) hten.le
  · exact mul_lt_mul_of_pos_right (by exact_mod_cast hlt) hten

theorem two_zpow_le (k : Nat) : (2 : ℚ) ^ (3 * k : Int) ≤ 10 ^ (k : Int) := by
  rw [zpow_mul, zpow_natCast, zpow_natCast]
  exact pow_le_pow_left₀ (by norm_num) (by norm_num) k

theorem ten_zpow_le (k : Nat) : (10 : ℚ) ^ (-k : Int) ≤ 2 ^ (-(3 * k) : Int) := by
  rw [zpow_neg, zpow_neg]
  exact inv_anti₀ (by positivity) (two_zpow_le k)

section

variable {m : Nat} (hm : 0 < m) (hfinite : m < Format.double.infinity) {x : ℚ}
  (h : Format.double.Rounds x m)
include hm hfinite h

/-- What is rounded to a finite positive number is neither huge nor tiny. -/
theorem Format.Rounds.bounds : (10 : ℚ) ^ (-360 : Int) < x ∧ x < 10 ^ (342 : Int) := by
  have hleast := Format.double.value_strictMono.monotone (Nat.succ_le_of_lt hm)
  have hprevious := Format.double.value_strictMono.monotone (Nat.zero_le (m - 1))
  have hmost := Format.double.value_strictMono hfinite
  have hnext := Format.double.value_strictMono.monotone (Nat.succ_le_of_lt hfinite)
  have hlow := h.low_le
  have hhigh := h.le_high
  rw [Nat.succ_eq_add_one, Nat.zero_add, value_double_one] at hleast
  rw [Nat.succ_eq_add_one, value_double_infinity] at hnext
  rw [value_double_infinity] at hmost
  rw [Format.value_zero] at hprevious
  constructor
  · have hhalf : (2 : ℚ) ^ (-1074 : Int) = 2 * 2 ^ (-1075 : Int) := by
      rw [← zpow_one_add₀ (by norm_num)]
      rfl
    have hx : (2 : ℚ) ^ (-1075 : Int) ≤ x := by
      generalize (2 : ℚ) ^ (-1075 : Int) = tiny at *
      linarith
    exact (ten_zpow_le 360).trans_lt
      ((zpow_lt_zpow_right₀ (by norm_num) (by norm_num)).trans_le hx)
  · have hx : x < (2 : ℚ) ^ (1024 : Int) := by
      generalize (2 : ℚ) ^ (1024 : Int) = huge at *
      linarith
    exact hx.trans_le
      ((zpow_le_zpow_right₀ (by norm_num) (by norm_num)).trans (two_zpow_le 342))

/-- The order of a decimal that is rounded to a finite positive number. -/
theorem Decimal.order_bounds {d : Decimal} (hd : d.value = x) :
    0 < d.digits ∧ -361 ≤ d.order ∧ d.order ≤ 341 := by
  obtain ⟨htiny, hhuge⟩ := h.bounds hm hfinite
  have hdigits : 0 < d.digits := by
    rcases Nat.eq_zero_or_pos d.digits with hzero | hpos
    · rw [← hd, Decimal.value, hzero, Nat.cast_zero, zero_mul] at htiny
      exact absurd htiny (not_lt.mpr (by positivity))
    · exact hpos
  obtain ⟨hle, hlt⟩ := d.order_spec hdigits
  rw [hd] at hle hlt
  have hlow := (zpow_lt_zpow_iff_right₀ (by norm_num)).mp (htiny.trans hlt)
  have hhigh := (zpow_lt_zpow_iff_right₀ (by norm_num)).mp (hle.trans_lt hhuge)
  omega

/-- A reading is rounded as the number it stands for. -/
theorem ofReading_eq {digits : Nat} {ten : Int} (hx : digits * 10 ^ ten = x) :
    Format.double.ofReading digits ten 0 = m := by
  obtain ⟨hdigits, hlow, hhigh⟩ :=
    Decimal.order_bounds hm hfinite h (d := ⟨digits, ten⟩) hx
  rw [Decimal.order, digitText] at hlow hhigh
  simp only at hlow hhigh
  have hnum : 0 < digits * 10 ^ ten.toNat := Nat.mul_pos hdigits (Nat.pow_pos (by decide))
  have hden : 0 < 10 ^ (-ten).toNat := Nat.pow_pos (by decide)
  have hquotient : ((digits * 10 ^ ten.toNat : Nat) : ℚ) / (10 ^ (-ten).toNat : Nat) = x := by
    push_cast
    rw [← hx, mul_div_assoc, ← zpow_natCast, ← zpow_natCast, ← zpow_sub₀ (by norm_num),
      show (ten.toNat : Int) - ((-ten).toNat : Int) = ten by omega]
  rw [Format.ofReading, if_neg hdigits.ne', decimalBound]
  simp only [neg_zero, Int.toNat_zero, Nat.pow_eq, pow_zero, mul_one]
  rw [if_neg (by omega), if_neg (by omega)]
  rw [← hquotient] at h
  exact Format.round_eq_of_rounds (f := Format.double) (by decide) hnum hden hfinite.le h

end

/-- The magnitude pattern of `2 ^ 63`, the least whole number that has no eight bytes. -/
def wordPattern : Nat := 0x43E0000000000000

theorem value_wordPattern : Format.double.value wordPattern = 2 ^ 63 := by
  have hsplit : Format.double.split wordPattern = (4503599627370496, 11) := by decide
  rw [Format.value, hsplit]
  norm_num

theorem round_le_wordPattern {n : Nat} (hn : n ≤ 2 ^ 63) :
    Format.double.round n 1 ≤ wordPattern := by
  rcases Nat.eq_zero_or_pos n with rfl | hpos
  · decide
  · apply Format.double.round_le (by decide) hpos Nat.one_pos
    rw [value_wordPattern, Nat.cast_one, div_one]
    exact_mod_cast hn

/-- A whole number within eight bytes is rounded as it is. -/
theorem ofReading_natCast {n : Nat} (hn : n ≤ 2 ^ 63) :
    Format.double.ofReading n 0 0 = Format.double.round n 1 := by
  rw [Format.ofReading, decimalBound]
  split
  · next hzero =>
    rw [hzero]
    rfl
  · have hlength : (Nat.toDigits 10 n).length ≤ 20 :=
      (Nat.length_toDigits_le_iff (by decide) (by decide)).mpr (by omega)
    simp only [neg_zero, Int.toNat_zero, Nat.pow_eq, pow_zero, mul_one]
    rw [if_neg (by omega), if_neg (by omega)]

/-- Zero is written as a numeral without a digit but zero. -/
theorem Layout.exists_zero (l : Layout) : ∃ n : Numeral,
    n.text = l.zero ∧ n.digits = 0 ∧ n.exponent = none ∧ (n.IsWhole ↔ l.keepPoint = false) := by
  have hzero : ∀ c ∈ ['0'], c.isDigit = true := List.forall_mem_singleton.mpr rfl
  rw [Layout.zero]
  cases l.keepPoint with
  | false =>
    refine ⟨⟨['0'], none, none, List.cons_ne_nil _ _, hzero, List.forall_mem_nil _⟩, rfl, rfl, rfl,
      ?_⟩
    simp [Numeral.IsWhole]
  | true =>
    refine ⟨⟨['0'], some ['0'], none, List.cons_ne_nil _ _, hzero, hzero⟩, rfl, rfl, rfl, ?_⟩
    simp [Numeral.IsWhole]

theorem natAbs_signed (negative : Bool) (n : Nat) : (signed negative n).natAbs = n := by
  cases negative with
  | true => exact Int.natAbs_neg n
  | false => rfl

theorem natAbs_toInt_le (n : Int64) : n.toInt.natAbs ≤ 2 ^ 63 := by
  have hlow := n.le_toInt
  have hhigh := n.toInt_lt
  omega

end Number

namespace Double

open Number

/-! ## Sign and magnitude -/

theorem ofMagnitude_magnitude (x : Double) : ofMagnitude x.isNegative x.magnitude = x := by
  have hbound : x.bits.toNat < 2 * Format.double.signBit := x.bits.toNat_lt
  rw [ofMagnitude, isNegative, magnitude]
  congr 1
  rw [← UInt64.toNat_inj, UInt64.toNat_ofNat']
  by_cases hneg : Format.double.signBit ≤ x.bits.toNat
  · have hmod : x.bits.toNat % Format.double.signBit = x.bits.toNat - Format.double.signBit := by
      rw [Nat.mod_eq_sub_mod hneg]
      exact Nat.mod_eq_of_lt (by omega)
    rw [decide_eq_true hneg, if_pos rfl, hmod, Nat.add_sub_cancel' hneg]
    exact Nat.mod_eq_of_lt x.bits.toNat_lt
  · have hmod : x.bits.toNat % Format.double.signBit = x.bits.toNat := Nat.mod_eq_of_lt (by omega)
    rw [decide_eq_false hneg, if_neg Bool.false_ne_true, hmod]
    exact Nat.mod_eq_of_lt x.bits.toNat_lt

section OfMagnitude

variable (negative : Bool) {m : Nat} (hm : m < Format.double.signBit)
include hm

theorem toNat_bits_ofMagnitude : (ofMagnitude negative m).bits.toNat =
    if negative then Format.double.signBit + m else m := by
  have hsize : 2 ^ 64 = Format.double.signBit + Format.double.signBit := by decide
  rw [ofMagnitude, UInt64.toNat_ofNat']
  apply Nat.mod_eq_of_lt
  rw [hsize]
  split
  · omega
  · omega

theorem magnitude_ofMagnitude : (ofMagnitude negative m).magnitude = m := by
  rw [magnitude, toNat_bits_ofMagnitude negative hm]
  split
  · rw [Nat.add_mod_left, Nat.mod_eq_of_lt hm]
  · rw [Nat.mod_eq_of_lt hm]

theorem isNegative_ofMagnitude : (ofMagnitude negative m).isNegative = negative := by
  rw [isNegative, toNat_bits_ofMagnitude negative hm]
  cases negative with
  | true => simp
  | false => simpa using hm

end OfMagnitude

theorem isFinite_ofMagnitude (negative : Bool) {m : Nat} (hm : m < Format.double.infinity) :
    (ofMagnitude negative m).isFinite = true := by
  have hsign : Format.double.infinity < Format.double.signBit := by decide
  rw [isFinite, magnitude_ofMagnitude negative (hm.trans hsign)]
  exact decide_eq_true hm

theorem equals_self {x : Double} (hx : x.isFinite = true) : x.equals x = true := by
  have hlt : x.magnitude < Format.double.infinity := of_decide_eq_true hx
  simp [equals, isNaN, hlt.le]

/-! ## Order keys -/

theorem orderKey_eq (x : Double) : x.orderKey = signed x.isNegative x.magnitude := rfl

theorem equals_iff {x y : Double} (hx : x.isFinite = true) (hy : y.isFinite = true) :
    x.equals y = true ↔ x.orderKey = y.orderKey := by
  have hlt : x.magnitude < Format.double.infinity := of_decide_eq_true hx
  have hlt' : y.magnitude < Format.double.infinity := of_decide_eq_true hy
  simp [equals, isNaN, hlt.le, hlt'.le]

section OfInt

variable {n : Int} (hn : n.natAbs ≤ 2 ^ 63)
include hn

theorem isFinite_ofInt : (ofInt n).isFinite = true := by
  have hfinite : wordPattern < Format.double.infinity := by decide
  exact isFinite_ofMagnitude _ ((round_le_wordPattern hn).trans_lt hfinite)

theorem orderKey_ofInt :
    (ofInt n).orderKey = signed (decide (n < 0)) (Format.double.round n.natAbs 1) := by
  have hsign : wordPattern < Format.double.signBit := by decide
  have hround := (round_le_wordPattern hn).trans_lt hsign
  rw [orderKey_eq, ofInt, isNegative_ofMagnitude _ hround, magnitude_ofMagnitude _ hround]

end OfInt

/-! ## Texts -/

/-- The number that a finite double stands for. -/
def value (x : Double) : ℚ :=
  if x.isNegative then -Format.double.value x.magnitude else Format.double.value x.magnitude

theorem abs_value (x : Double) : |x.value| = Format.double.value x.magnitude := by
  have hnonneg : 0 ≤ Format.double.value x.magnitude := by
    rw [← Format.value_zero (f := Format.double)]
    exact Format.double.value_strictMono.monotone (Nat.zero_le _)
  rw [value]
  split
  · rw [abs_neg, abs_of_nonneg hnonneg]
  · rw [abs_of_nonneg hnonneg]

theorem write_eq_of_isZero {x : Double} (hx : x.isZero = true) (l : Layout) :
    x.write l = String.ofList (withSign x.isNegative l.zero) := by
  simp only [write, hx, if_true, withSign]

theorem write_eq_of_not_isZero {x : Double} (hx : x.isZero = false) (l : Layout) :
    x.write l = String.ofList
      (withSign x.isNegative (l.write (Format.double.shortest x.magnitude))) := by
  simp only [write, hx, Bool.false_eq_true, if_false, withSign]

/-- A finite double is read back from its text in any layout. -/
theorem read?_write {x : Double} (hx : x.isFinite = true) (l : Layout) :
    read? (x.write l) = some x := by
  have hfinite : x.magnitude < Format.double.infinity := of_decide_eq_true hx
  cases hzero : x.isZero with
  | true =>
    have hmagnitude : x.magnitude = 0 := of_decide_eq_true hzero
    obtain ⟨n, htext, hdigits, hexponent, -⟩ := l.exists_zero
    have hreading := n.reading?_text (by simp [hexponent]) x.isNegative
    rw [write_eq_of_isZero hzero, read?, String.toList_ofList, ← htext, hreading, hdigits]
    have hofReading : Format.double.ofReading 0 n.ten 0 = x.magnitude := by
      rw [hmagnitude, Format.ofReading, if_pos rfl]
    rw [Option.map_some, ofReading, hofReading, ofMagnitude_magnitude]
  | false =>
    have hpos : 0 < x.magnitude := Nat.pos_of_ne_zero (of_decide_eq_false hzero)
    have hrounds := rounds_shortest hpos hfinite
    obtain ⟨n, htext, hvalue, hexponent, -⟩ := l.exists_numeral (Format.double.shortest x.magnitude)
    obtain ⟨-, hlow, hhigh⟩ := Decimal.order_bounds hpos hfinite hrounds rfl
    have hbound : (n.exponent.getD 0).natAbs ≤ exponentBound := by
      rw [exponentBound]
      rcases hexponent with he | he
      · rw [he, Option.getD_none]
        omega
      · rw [he, Option.getD_some]
        omega
    have hreading := n.reading?_text hbound x.isNegative
    have hofReading := ofReading_eq hpos hfinite hrounds hvalue
    rw [write_eq_of_not_isZero hzero, read?, String.toList_ofList, ← htext, hreading,
      Option.map_some, ofReading, hofReading, ofMagnitude_magnitude]

end Double

end ExprLang
