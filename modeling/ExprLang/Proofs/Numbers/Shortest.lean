import ExprLang.Number.Shortest
import ExprLang.Proofs.Numbers.Rounding

/-!
# Shortest decimals

A decimal that an interval accepts is rounded to the interval's pattern
(`Format.accepts_iff_rounds`). The search for the fewest digits finds such a decimal: with seventeen
digits the grid is finer than the patterns of eight-byte numbers are apart (`rounds_shortest`).
-/

namespace ExprLang.Number

/-- The number that a decimal stands for. -/
def Decimal.value (d : Decimal) : ℚ := d.digits * 10 ^ d.exponent

theorem powerOfTen_spec (e : Int) :
    0 < (powerOfTen e).1 ∧ 0 < (powerOfTen e).2 ∧
      ((powerOfTen e).1 : ℚ) / (powerOfTen e).2 = 10 ^ e := by
  rw [powerOfTen]
  by_cases he : 0 ≤ e
  · obtain ⟨k, rfl⟩ := Int.eq_ofNat_of_zero_le he
    rw [if_pos he, Int.toNat_natCast, zpow_natCast, Nat.pow_eq]
    exact ⟨Nat.pow_pos (by decide), Nat.one_pos, by push_cast; rw [div_one]⟩
  · obtain ⟨k, hk⟩ := Int.eq_ofNat_of_zero_le (by omega : 0 ≤ -e)
    obtain rfl : e = -(k : Int) := by omega
    rw [if_neg he, neg_neg, Int.toNat_natCast, zpow_neg, zpow_natCast, Nat.pow_eq]
    exact ⟨Nat.one_pos, Nat.pow_pos (by decide), by push_cast; rw [one_div]⟩

/-! ## Intervals -/

namespace Format

variable {f : Format} {m : Nat}

/-- A quarter of the last bit, in the units of the interval. -/
def quarter (f : Format) (m : Nat) : Nat :=
  if 2 ≤ (f.split m).2 then Nat.pow 2 ((f.split m).2 - 2).toNat else 1

theorem interval_scale (f : Format) (m : Nat) : (f.interval m).scale =
    if 2 ≤ (f.split m).2 then 1 else Nat.pow 2 (2 - (f.split m).2).toNat := rfl

theorem interval_scale_pos (f : Format) (m : Nat) : 0 < (f.interval m).scale := by
  rw [interval_scale]
  split
  · exact Nat.one_pos
  · exact Nat.pow_pos (by decide)

theorem mul_quarter_div_scale (f : Format) (m n : Nat) :
    ((n * f.quarter m : Nat) : ℚ) / (f.interval m).scale = n * f.ulp m / 4 := by
  have hfour : (4 : ℚ) = 2 ^ (2 : Int) := by norm_num
  rw [interval_scale, quarter, ulp, hfour]
  by_cases h : 2 ≤ (f.split m).2
  · obtain ⟨k, hk⟩ := Int.eq_ofNat_of_zero_le (by omega : 0 ≤ (f.split m).2 - 2)
    have he : (f.split m).2 = k + 2 := by omega
    rw [if_pos h, if_pos h, hk, he, Int.toNat_natCast, zpow_add₀ (by norm_num), zpow_natCast,
      Nat.pow_eq]
    push_cast
    field_simp
  · obtain ⟨k, hk⟩ := Int.eq_ofNat_of_zero_le (by omega : 0 ≤ 2 - (f.split m).2)
    have he : (f.split m).2 = 2 - k := by omega
    rw [if_neg h, if_neg h, hk, he, Int.toNat_natCast, zpow_sub₀ (by norm_num), zpow_natCast,
      Nat.pow_eq]
    push_cast
    field_simp

theorem interval_value (f : Format) (m : Nat) :
    ((f.interval m).value : ℚ) / (f.interval m).scale = f.value m := by
  have hvalue : (f.interval m).value = 4 * (f.split m).1 * f.quarter m := rfl
  rw [hvalue, mul_quarter_div_scale, value, ← ulp]
  push_cast
  ring

theorem interval_high (f : Format) (m : Nat) :
    2 * (((f.interval m).high : ℚ) / (f.interval m).scale) = f.value m + f.value (m + 1) := by
  have hhigh : (f.interval m).high = (4 * (f.split m).1 + 2) * f.quarter m := rfl
  rw [hhigh, mul_quarter_div_scale, value_succ, value, ← ulp]
  push_cast
  ring

/-- The least significand of full length, where the patterns before are closer together. -/
def AtPower (f : Format) (m : Nat) : Prop :=
  (f.split m).1 = f.unit ∧ f.minExponent < (f.split m).2

theorem ulp_pred (hm : 0 < m) :
    (f.AtPower m ∧ 2 * f.ulp (m - 1) = f.ulp m) ∨ (¬ f.AtPower m ∧ f.ulp (m - 1) = f.ulp m) := by
  obtain ⟨field, significand, rfl, hfull, hhigh⟩ := f.exists_split m
  have hpos := f.unit_pos
  rw [AtPower, ulp_eq hfull hhigh, split_eq hfull hhigh]
  by_cases hleast : significand = f.unit ∧ 0 < field
  · obtain ⟨rfl, hfield⟩ := hleast
    obtain ⟨k, rfl⟩ := Nat.exists_eq_succ_of_ne_zero hfield.ne'
    have hpred : (k + 1) * f.unit + f.unit - 1 = k * f.unit + (2 * f.unit - 1) := by
      rw [Nat.add_mul]
      omega
    refine .inl ⟨⟨rfl, by omega⟩, ?_⟩
    rw [hpred, ulp_eq (by omega) (by omega)]
    push_cast
    rw [← add_assoc, zpow_add_one₀ (by norm_num), mul_comm]
  · have hsignificand : 1 ≤ significand := by
      rcases hfull with rfl | hle
      · omega
      · omega
    refine .inr ⟨by omega, ?_⟩
    rw [Nat.add_sub_assoc hsignificand, ulp_eq (by omega) (by omega)]

theorem significand_pos (hm : 0 < m) : 0 < (f.split m).1 := by
  obtain ⟨field, significand, rfl, hfull, hhigh⟩ := f.exists_split m
  have hpos := f.unit_pos
  rw [split_eq hfull hhigh]
  rcases hfull with rfl | hle
  · simpa using hm
  · exact hpos.trans_le hle

theorem interval_low (hm : 0 < m) :
    2 * (((f.interval m).low : ℚ) / (f.interval m).scale) = f.value (m - 1) + f.value m := by
  have hpos := significand_pos (f := f) hm
  have hprevious := f.value_succ (m - 1)
  rw [Nat.sub_add_cancel hm] at hprevious
  have hlow : (f.interval m).low = (4 * (f.split m).1 -
    if (f.split m).1 = f.unit ∧ f.minExponent < (f.split m).2 then 1 else 2) * f.quarter m := rfl
  have hvalue : f.value m = (f.split m).1 * f.ulp m := rfl
  rw [hlow, mul_quarter_div_scale]
  rcases ulp_pred (f := f) hm with ⟨hpower, hulp⟩ | ⟨hpower, hulp⟩
  · rw [AtPower] at hpower
    rw [if_pos hpower, Nat.cast_sub (by omega)]
    push_cast
    linarith
  · rw [AtPower] at hpower
    rw [if_neg hpower, Nat.cast_sub (by omega)]
    push_cast
    linarith

/-- Patterns are even if their significands are. -/
theorem split_mod_two (hbits : 0 < f.fractionBits) (m : Nat) : (f.split m).1 % 2 = m % 2 := by
  obtain ⟨field, significand, rfl, hfull, hhigh⟩ := f.exists_split m
  rw [split_eq hfull hhigh, pattern_mod_two hbits]

end Format

namespace Interval

variable {i : Interval}

theorem accepts_iff (hscale : 0 < i.scale) (n : Nat) (e : Int) :
    i.accepts n e = true ↔
      (i.low : ℚ) / i.scale ≤ n * 10 ^ e ∧ n * 10 ^ e ≤ (i.high : ℚ) / i.scale ∧
        ((i.low : ℚ) / i.scale = n * 10 ^ e ∨ n * 10 ^ e = (i.high : ℚ) / i.scale →
          i.closed = true) := by
  obtain ⟨hnum, hden, hpower⟩ := powerOfTen_spec e
  have hscale' : (0 : ℚ) < i.scale := by exact_mod_cast hscale
  have hden' : (0 : ℚ) < (powerOfTen e).2 := by exact_mod_cast hden
  have hlow : (i.low : ℚ) / i.scale ≤ n * 10 ^ e ↔
      i.low * (powerOfTen e).2 ≤ n * (powerOfTen e).1 * i.scale := by
    rw [← hpower, ← mul_div_assoc, div_le_div_iff₀ hscale' hden']
    exact_mod_cast Iff.rfl
  have hhigh : (n : ℚ) * 10 ^ e ≤ (i.high : ℚ) / i.scale ↔
      n * (powerOfTen e).1 * i.scale ≤ i.high * (powerOfTen e).2 := by
    rw [← hpower, ← mul_div_assoc, div_le_div_iff₀ hden' hscale']
    exact_mod_cast Iff.rfl
  have hlow' : (i.low : ℚ) / i.scale = n * 10 ^ e ↔
      i.low * (powerOfTen e).2 = n * (powerOfTen e).1 * i.scale := by
    rw [← hpower, ← mul_div_assoc, div_eq_div_iff hscale'.ne' hden'.ne']
    exact_mod_cast Iff.rfl
  have hhigh' : (n : ℚ) * 10 ^ e = (i.high : ℚ) / i.scale ↔
      n * (powerOfTen e).1 * i.scale = i.high * (powerOfTen e).2 := by
    rw [← hpower, ← mul_div_assoc, div_eq_div_iff hden'.ne' hscale'.ne']
    exact_mod_cast Iff.rfl
  rw [hlow, hhigh, hlow', hhigh', accepts]
  cases i.closed with
  | true => simp
  | false =>
    simp only [Bool.false_eq_true, if_false, decide_eq_true_eq, imp_false, not_or]
    omega

/-- The point of a grid at or below the value. -/
def lower (i : Interval) (e : Int) : Nat :=
  i.value * (powerOfTen e).2 / ((powerOfTen e).1 * i.scale)

theorem lower_spec (hscale : 0 < i.scale) (e : Int) :
    (i.lower e : ℚ) * 10 ^ e ≤ (i.value : ℚ) / i.scale ∧
      (i.value : ℚ) / i.scale < (i.lower e + 1 : ℚ) * 10 ^ e := by
  obtain ⟨hnum, hden, hpower⟩ := powerOfTen_spec e
  have hscale' : (0 : ℚ) < i.scale := by exact_mod_cast hscale
  have hden' : (0 : ℚ) < (powerOfTen e).2 := by exact_mod_cast hden
  have hstep : 0 < (powerOfTen e).1 * i.scale := Nat.mul_pos hnum hscale
  rw [← hpower, ← mul_div_assoc, ← mul_div_assoc, div_le_div_iff₀ hden' hscale',
    div_lt_div_iff₀ hscale' hden']
  constructor
  · have hle := Nat.div_mul_le_self (i.value * (powerOfTen e).2) ((powerOfTen e).1 * i.scale)
    rw [← Nat.mul_assoc] at hle
    exact_mod_cast hle
  · have hlt := Nat.lt_mul_div_succ (i.value * (powerOfTen e).2) hstep
    rw [Nat.mul_comm (_ * _) (_ + 1), ← Nat.mul_assoc] at hlt
    exact_mod_cast hlt

/-- A grid has a candidate exactly if one of the two points around the value is accepted. -/
theorem candidate?_spec (i : Interval) (e : Int) :
    (∃ n, i.candidate? e = some n ∧ i.accepts n e = true) ∨
      (i.candidate? e = none ∧ i.accepts (i.lower e) e = false ∧
        i.accepts (i.lower e + 1) e = false) := by
  unfold candidate? lower
  generalize powerOfTen e = power
  obtain ⟨num, den⟩ := power
  simp only
  generalize i.value * den / (num * i.scale) = n
  cases hlower : i.accepts n e with
  | false =>
    cases hupper : i.accepts (n + 1) e with
    | false => exact .inr ⟨rfl, rfl, rfl⟩
    | true => exact .inl ⟨_, rfl, hupper⟩
  | true =>
    cases hupper : i.accepts (n + 1) e with
    | false => exact .inl ⟨_, rfl, hlower⟩
    | true =>
      left
      simp only
      split
      · exact ⟨_, rfl, hlower⟩
      · split
        · exact ⟨_, rfl, hupper⟩
        · split
          · exact ⟨_, rfl, hlower⟩
          · exact ⟨_, rfl, hupper⟩

end Interval

/-- What an interval accepts is rounded to the interval's pattern. -/
theorem Format.accepts_iff_rounds {f : Format} (hbits : 0 < f.fractionBits) {m : Nat} (hm : 0 < m)
    (n : Nat) (e : Int) : (f.interval m).accepts n e = true ↔ f.Rounds (n * 10 ^ e) m := by
  have hlow := Format.interval_low (f := f) hm
  have hhigh := f.interval_high m
  have hclosed : (f.interval m).closed = true ↔ m % 2 = 0 := by
    have hparity := Format.split_mod_two hbits m
    rw [← hparity]
    exact decide_eq_true_iff
  rw [Interval.accepts_iff (f.interval_scale_pos m), hclosed]
  generalize ((f.interval m).low : ℚ) / (f.interval m).scale = low at *
  generalize ((f.interval m).high : ℚ) / (f.interval m).scale = high at *
  constructor
  · rintro ⟨hle, hle', htie⟩
    refine ⟨by linarith, by linarith, fun h => htie (h.imp (fun h => ?_) (fun h => ?_))⟩
    · linarith
    · linarith
  · rintro ⟨hle, hle', htie⟩
    refine ⟨by linarith, by linarith, fun h => htie (h.imp (fun h => ?_) (fun h => ?_))⟩
    · linarith
    · linarith

/-! ## Seventeen digits -/

theorem Decimal.value_stripZeros (budget digits : Nat) (exponent : Int) :
    (stripZeros budget digits exponent).value = digits * 10 ^ exponent ∧
      exponent ≤ (stripZeros budget digits exponent).exponent := by
  induction budget generalizing digits exponent with
  | zero => exact ⟨rfl, le_rfl⟩
  | succ budget ih =>
    rw [stripZeros]
    split
    · next h =>
      obtain ⟨hvalue, hle⟩ := ih (digits / 10) (exponent + 1)
      have hdigits : (digits : ℚ) = 10 * (digits / 10 : Nat) := by
        exact_mod_cast (Nat.mul_div_cancel' (Nat.dvd_of_mod_eq_zero h.2)).symm
      refine ⟨?_, by omega⟩
      rw [hvalue, hdigits, zpow_add_one₀ (by norm_num)]
      ring
    · exact ⟨rfl, le_rfl⟩

/-- The first grid with a candidate gives a decimal that is accepted. -/
theorem Interval.search_spec {i : Interval} {top : Int} {last : Nat} (budget count : Nat)
    (hlow : count ≤ last) (hhigh : last < count + budget)
    (hlast : i.candidate? (top - last) ≠ none) :
    ∃ n e, i.accepts n e = true ∧ (i.search top budget count).value = n * 10 ^ e ∧
      top - last ≤ (i.search top budget count).exponent := by
  induction budget generalizing count with
  | zero => omega
  | succ budget ih =>
    rw [Interval.search]
    rcases i.candidate?_spec (top - count) with ⟨n, hsome, haccepts⟩ | ⟨hnone, -, -⟩
    · rw [hsome]
      obtain ⟨hvalue, hle⟩ := Decimal.value_stripZeros (count + 1) n (top - count)
      have htop : top - last ≤ top - count := by omega
      exact ⟨n, top - count, haccepts, hvalue, htop.trans hle⟩
    · rw [hnone]
      apply ih
      · rcases hlow.lt_or_eq with hlt | rfl
        · omega
        · exact absurd hnone hlast
      · omega

/-- Numbers between a pattern and the middle to the next one. -/
theorem Format.rounds_of_le {f : Format} {m : Nat} (hm : 0 < m) {x : ℚ} (hle : f.value m ≤ x)
    (hlt : 2 * x < f.value m + f.value (m + 1)) : f.Rounds x m := by
  have hprevious := f.value_strictMono (Nat.sub_one_lt hm.ne')
  refine ⟨by linarith, by linarith, ?_⟩
  rintro (h | h) <;> linarith

/-- Numbers between a pattern and the middle to the one before. -/
theorem Format.rounds_of_ge {f : Format} {m : Nat} {x : ℚ} (hle : x ≤ f.value m)
    (hlt : f.value (m - 1) + f.value m < 2 * x) : f.Rounds x m := by
  have hnext := f.value_strictMono m.lt_succ_self
  rw [Nat.succ_eq_add_one] at hnext
  refine ⟨by linarith, by linarith, ?_⟩
  rintro (h | h) <;> linarith

/-- The significands of eight-byte numbers have fewer than seventeen digits. -/
theorem split_double_lt (m : Nat) : (Format.double.split m).1 < 2 * 4503599627370496 := by
  obtain ⟨field, significand, rfl, hfull, hhigh⟩ := Format.double.exists_split m
  rw [Format.split_eq hfull hhigh]
  exact hhigh

/-- A grid of seventeen digits has a point next to a number that is rounded to it. -/
theorem candidate?_double_ne_none {m : Nat} (hm : 0 < m) {e : Int}
    (he : (10 : ℚ) ^ (e + 16) ≤ Format.double.value m) :
    (Format.double.interval m).candidate? e ≠ none := by
  obtain ⟨hlower, hupper⟩ := Interval.lower_spec (Format.double.interval_scale_pos m) e
  rw [Format.interval_value] at hlower hupper
  have haccepts (n : Nat) := Format.accepts_iff_rounds (f := Format.double) (by decide) hm n e
  have hulp := Format.double.ulp_pos m
  have hnext := Format.double.value_succ m
  have hprevious := Format.double.value_succ (m - 1)
  rw [Nat.sub_add_cancel hm] at hprevious
  rw [zpow_add₀ (by norm_num)] at he
  have hvalue : Format.double.value m = (Format.double.split m).1 * Format.double.ulp m := rfl
  rcases (Format.double.interval m).candidate?_spec e with ⟨n, hsome, -⟩ | ⟨-, hl, hu⟩
  · rw [hsome]
    exact Option.some_ne_none n
  · exfalso
    rw [Bool.eq_false_iff, Ne, haccepts] at hl hu
    push_cast at hu
    rcases Format.ulp_pred (f := Format.double) hm with ⟨hpower, hhalf⟩ | ⟨-, hsame⟩
    · -- just above a power of two the step is less than half the distance to the next pattern
      have hunit : (Format.double.split m).1 = 4503599627370496 := hpower.1
      rw [hvalue, hunit] at he
      refine hu (Format.rounds_of_le hm hupper.le ?_)
      push_cast at he
      linarith
    · -- elsewhere one of the two points is on its side of the middle
      have hlt : ((Format.double.split m).1 : ℚ) < 2 * 4503599627370496 := by
        exact_mod_cast split_double_lt m
      have hstep := he.trans_lt (hvalue.trans_lt (mul_lt_mul_of_pos_right hlt hulp))
      by_cases hnear : 2 * (Format.double.value m - (Format.double.interval m).lower e * 10 ^ e) <
          Format.double.ulp m
      · exact hl (Format.rounds_of_ge hlower (by linarith))
      · exact hu (Format.rounds_of_le hm hupper.le (by linarith))

/-! ## The decimal exponent -/

/-- The decimal exponent guessed from a binary one. -/
def guessedExponent (e : Int) : Int := Int.fdiv (e * 30103) 100000

/-- Over the exponents of eight-byte numbers the guess is at most one too large. -/
theorem guessedExponent_le {e : Int} (hlow : -1074 ≤ e) (hhigh : e ≤ 1023) :
    (10 : ℚ) ^ (guessedExponent e - 1) ≤ 2 ^ e := by
  have hall : ∀ k ∈ List.range 2098,
      powerAtMost (1074 - k) (powerOfTen (guessedExponent (k - 1074) - 1)).2
        (powerOfTen (guessedExponent (k - 1074) - 1)).1 = true := by decide +kernel
  have hmem : (e + 1074).toNat ∈ List.range 2098 := List.mem_range.mpr (by omega)
  have hpower := hall _ hmem
  rw [Int.toNat_of_nonneg (by omega), add_sub_cancel_right,
    show 1074 - (e + 1074) = -e by ring] at hpower
  obtain ⟨hnum, hden, hten⟩ := powerOfTen_spec (guessedExponent e - 1)
  rw [powerAtMost_iff _ _ hnum, zpow_neg] at hpower
  rw [← hten, ← inv_inv (_ / _), inv_div]
  exact inv_le_of_inv_le₀ (by positivity) hpower

theorem Interval.below_iff {i : Interval} (hscale : 0 < i.scale) (e : Int) :
    i.below e = true ↔ (i.value : ℚ) / i.scale < 10 ^ e := by
  obtain ⟨hnum, hden, hpower⟩ := powerOfTen_spec e
  have hscale' : (0 : ℚ) < i.scale := by exact_mod_cast hscale
  have hden' : (0 : ℚ) < (powerOfTen e).2 := by exact_mod_cast hden
  rw [← hpower, div_lt_div_iff₀ hscale' hden', Interval.below, decide_eq_true_iff]
  exact_mod_cast Iff.rfl

/-- The decimal exponent is at most the number's, and at least the one guessed. -/
theorem Interval.decimalExponent_spec {i : Interval} (hscale : 0 < i.scale) {e : Int}
    (he : e = binaryExponent i.value i.scale)
    (hguess : (10 : ℚ) ^ (guessedExponent e - 1) ≤ (i.value : ℚ) / i.scale) :
    (10 : ℚ) ^ (i.decimalExponent - 1) ≤ (i.value : ℚ) / i.scale ∧
      guessedExponent e ≤ i.decimalExponent := by
  have hdef : i.decimalExponent = if i.below (guessedExponent e) then guessedExponent e
      else if i.below (guessedExponent e + 1) then guessedExponent e + 1
      else guessedExponent e + 2 := by rw [he]; rfl
  rw [hdef]
  split
  · exact ⟨hguess, le_rfl⟩
  · next hbelow =>
    rw [Interval.below_iff hscale, not_lt] at hbelow
    split
    · rw [add_sub_cancel_right]
      exact ⟨hbelow, by omega⟩
    · next hbelow' =>
      rw [Interval.below_iff hscale, not_lt] at hbelow'
      rw [show guessedExponent e + 2 - 1 = guessedExponent e + 1 by omega]
      exact ⟨hbelow', by omega⟩

/-! ## Eight-byte numbers -/

theorem value_double_one : Format.double.value 1 = 2 ^ (-1074 : Int) := by
  have hsplit : Format.double.split 1 = (1, -1074) := by decide
  rw [Format.value, hsplit, Nat.cast_one, one_mul]

theorem value_double_infinity : Format.double.value Format.double.infinity = 2 ^ (1024 : Int) := by
  have hsplit : Format.double.split Format.double.infinity = (4503599627370496, 972) := by decide
  have hpower : (2 : ℚ) ^ (52 : Int) = 4503599627370496 := by norm_num
  rw [Format.value, hsplit, show (1024 : Int) = 52 + 972 by rfl, zpow_add₀ (by norm_num), hpower]
  rfl

section

variable {m : Nat} (hm : 0 < m) (hfinite : m < Format.double.infinity)
include hm hfinite

/-- The exponents of the finite positive numbers. -/
theorem exponent_bounds {e : Int} (hle : (2 : ℚ) ^ e ≤ Format.double.value m)
    (hlt : Format.double.value m < 2 ^ (e + 1)) : -1074 ≤ e ∧ e ≤ 1023 := by
  have hleast := Format.double.value_strictMono.monotone (Nat.succ_le_of_lt hm)
  have hmost := Format.double.value_strictMono hfinite
  rw [Nat.succ_eq_add_one, Nat.zero_add, value_double_one] at hleast
  rw [value_double_infinity] at hmost
  have hlow := (zpow_lt_zpow_iff_right₀ (by norm_num)).mp (hleast.trans_lt hlt)
  have hhigh := (zpow_lt_zpow_iff_right₀ (by norm_num)).mp (hle.trans_lt hmost)
  omega

/-- The shortest decimal is rounded to the number, and it has no digits from the seventeenth place
    after the guessed exponent on. -/
theorem exists_exponent : ∃ e : Int,
    (2 : ℚ) ^ e ≤ Format.double.value m ∧ Format.double.value m < 2 ^ (e + 1) ∧
      Format.double.Rounds (Format.double.shortest m).value m ∧
        guessedExponent e - 17 ≤ (Format.double.shortest m).exponent := by
  have hscale := Format.double.interval_scale_pos m
  have hvalue := Format.double.interval_value m
  have hpos : 0 < (Format.double.interval m).value := by
    have hlt := Format.double.value_strictMono hm
    rw [Format.value_zero, ← hvalue] at hlt
    rcases Nat.eq_zero_or_pos (Format.double.interval m).value with hzero | hpos
    · rw [hzero, Nat.cast_zero, zero_div] at hlt
      exact absurd hlt (lt_irrefl 0)
    · exact hpos
  obtain ⟨hle, hlt⟩ := binaryExponent_spec hpos hscale
  rw [hvalue] at hle hlt
  obtain ⟨hlow, hhigh⟩ := exponent_bounds hm hfinite hle hlt
  have hguess := (guessedExponent_le hlow hhigh).trans hle
  rw [← hvalue] at hguess
  obtain ⟨htop, hguess_le⟩ := Interval.decimalExponent_spec hscale rfl hguess
  rw [hvalue, show (Format.double.interval m).decimalExponent - 1 =
    (Format.double.interval m).decimalExponent - (17 : Nat) + 16 by omega] at htop
  have hlast := candidate?_double_ne_none hm htop
  obtain ⟨n, e, haccepts, hsearch, hexponent⟩ :=
    Interval.search_spec 17 1 (by decide) (by decide) hlast
  rw [Format.accepts_iff_rounds (by decide) hm, ← hsearch] at haccepts
  exact ⟨_, hle, hlt, haccepts, (Int.sub_le_sub_right hguess_le 17).trans hexponent⟩

theorem rounds_shortest : Format.double.Rounds (Format.double.shortest m).value m := by
  obtain ⟨_, _, _, hrounds, _⟩ := exists_exponent hm hfinite
  exact hrounds

/-- From `2 ^ 63` on the shortest decimals are whole numbers. -/
theorem exponent_shortest_nonneg (hlarge : (2 : ℚ) ^ (63 : Int) ≤ Format.double.value m) :
    0 ≤ (Format.double.shortest m).exponent := by
  obtain ⟨e, _, hlt, _, hexponent⟩ := exists_exponent hm hfinite
  have he := (zpow_lt_zpow_iff_right₀ (by norm_num)).mp (hlarge.trans_lt hlt)
  rw [guessedExponent, Int.fdiv_eq_ediv_of_nonneg _ (by norm_num)] at hexponent
  omega

end

end ExprLang.Number
