import ExprLang.Number.Binary
import Mathlib.Algebra.Order.Field.Power
import Mathlib.Algebra.Order.Field.Rat
import Mathlib.Tactic.FieldSimp
import Mathlib.Tactic.Linarith
import Mathlib.Tactic.Positivity
import Mathlib.Tactic.Ring

/-!
# Rounding to a binary format

Every finite magnitude pattern stands for a number (`Format.value`), and the numbers of the patterns
grow with them. A number that lies between those halfway to the neighbours of a pattern is rounded
to that pattern, and on the half way if the pattern is even (`Format.round_eq_of_rounds`).
-/

namespace ExprLang.Number

/-- A whole number is the nearest to a number, and the even one of two that are equally near. -/
structure Nearest (x : ℚ) (n : Nat) : Prop where
  le_add : 2 * (n : ℚ) ≤ 2 * x + 1
  add_le : 2 * x ≤ 2 * (n : ℚ) + 1
  even_of_tie : 2 * (n : ℚ) = 2 * x + 1 ∨ 2 * x = 2 * (n : ℚ) + 1 → n % 2 = 0

theorem nearest_roundQuotient (num : Nat) {den : Nat} (hden : 0 < den) :
    Nearest (num / den) (roundQuotient num den) := by
  have hden' : (0 : ℚ) < den := by exact_mod_cast hden
  have hsplit : (num : ℚ) / den = (num / den : Nat) + (num % den : Nat) / den := by
    have hdiv : (num : ℚ) = den * (num / den : Nat) + (num % den : Nat) := by
      exact_mod_cast (Nat.div_add_mod num den).symm
    rw [div_eq_iff hden'.ne', add_mul, div_mul_cancel₀ _ hden'.ne', mul_comm]
    exact hdiv
  -- the part that is cut off, against a half
  have hnonneg : (0 : ℚ) ≤ (num % den : Nat) / den := by positivity
  have hone : ((num % den : Nat) : ℚ) / den < 1 := by
    rw [div_lt_one hden']
    exact_mod_cast Nat.mod_lt num hden
  have hbelow : 2 * (((num % den : Nat) : ℚ) / den) < 1 ↔ 2 * (num % den) < den := by
    rw [← mul_div_assoc, div_lt_one hden']
    exact_mod_cast Iff.rfl
  have habove : 1 < 2 * (((num % den : Nat) : ℚ) / den) ↔ den < 2 * (num % den) := by
    rw [← mul_div_assoc, one_lt_div hden']
    exact_mod_cast Iff.rfl
  generalize ((num % den : Nat) : ℚ) / den = part at *
  rw [hsplit]
  unfold roundQuotient
  simp only
  by_cases hlow : 2 * (num % den) < den
  · have hpart := hbelow.mpr hlow
    rw [if_pos hlow]
    refine ⟨by linarith, by linarith, ?_⟩
    rintro (h | h) <;> linarith
  · have hpart := mt hbelow.mp hlow
    rw [if_neg hlow]
    by_cases hhigh : den < 2 * (num % den)
    · have hpart' := habove.mpr hhigh
      rw [if_pos hhigh]
      refine ⟨by push_cast; linarith, by push_cast; linarith, ?_⟩
      push_cast
      rintro (h | h) <;> linarith
    · have hpart' := mt habove.mp hhigh
      rw [if_neg hhigh]
      by_cases heven : num / den % 2 = 0
      · rw [if_pos heven]
        exact ⟨by linarith, by linarith, fun _ => heven⟩
      · rw [if_neg heven]
        exact ⟨by push_cast; linarith, by push_cast; linarith, fun _ => by omega⟩

/-! ## Powers of two -/

theorem powerAtMost_iff (e : Int) (num : Nat) {den : Nat} (hden : 0 < den) :
    powerAtMost e num den = true ↔ (2 : ℚ) ^ e ≤ num / den := by
  have hden' : (0 : ℚ) < den := by exact_mod_cast hden
  rw [le_div_iff₀ hden', powerAtMost]
  by_cases he : 0 ≤ e
  · rw [if_pos he, decide_eq_true_eq, Nat.pow_eq]
    obtain ⟨k, rfl⟩ := Int.eq_ofNat_of_zero_le he
    rw [Int.toNat_natCast, zpow_natCast, mul_comm]
    exact_mod_cast Iff.rfl
  · rw [if_neg he, decide_eq_true_eq, Nat.pow_eq]
    obtain ⟨k, hk⟩ := Int.eq_ofNat_of_zero_le (by omega : 0 ≤ -e)
    obtain rfl : e = -(k : Int) := by omega
    rw [neg_neg, Int.toNat_natCast, zpow_neg, zpow_natCast, inv_mul_le_iff₀ (by positivity),
      mul_comm]
    exact_mod_cast Iff.rfl

theorem log2_spec {n : Nat} (hn : 0 < n) :
    (2 : ℚ) ^ (Nat.log2 n : Int) ≤ n ∧ (n : ℚ) < 2 ^ (Nat.log2 n + 1 : Int) := by
  constructor
  · rw [zpow_natCast]
    exact_mod_cast Nat.log2_self_le hn.ne'
  · have hlt : n < 2 ^ (Nat.log2 n + 1) := Nat.lt_log2_self
    exact_mod_cast hlt

/-- The exponent of the greatest power of two that is not above a quotient. -/
theorem binaryExponent_spec {num den : Nat} (hnum : 0 < num) (hden : 0 < den) :
    (2 : ℚ) ^ binaryExponent num den ≤ num / den ∧
      (num : ℚ) / den < 2 ^ (binaryExponent num den + 1) := by
  obtain ⟨hnum_ge, hnum_lt⟩ := log2_spec hnum
  obtain ⟨hden_ge, hden_lt⟩ := log2_spec hden
  have hden' : (0 : ℚ) < den := by exact_mod_cast hden
  have h2 : (2 : ℚ) ≠ 0 := by norm_num
  have hlt : (num : ℚ) / den < 2 ^ ((Nat.log2 num : Int) - Nat.log2 den + 1) := by
    rw [div_lt_iff₀ hden']
    calc (num : ℚ) < 2 ^ ((Nat.log2 num : Int) + 1) := hnum_lt
      _ = 2 ^ ((Nat.log2 num : Int) - Nat.log2 den + 1) * 2 ^ (Nat.log2 den : Int) := by
        rw [← zpow_add₀ h2]
        congr 1
        omega
      _ ≤ 2 ^ ((Nat.log2 num : Int) - Nat.log2 den + 1) * den := by gcongr
  have hge : 2 ^ ((Nat.log2 num : Int) - Nat.log2 den - 1) ≤ (num : ℚ) / den := by
    rw [le_div_iff₀ hden']
    calc 2 ^ ((Nat.log2 num : Int) - Nat.log2 den - 1) * (den : ℚ)
        ≤ 2 ^ ((Nat.log2 num : Int) - Nat.log2 den - 1) * 2 ^ ((Nat.log2 den : Int) + 1) := by
          gcongr
      _ = 2 ^ (Nat.log2 num : Int) := by
        rw [← zpow_add₀ h2]
        congr 1
        omega
      _ ≤ num := hnum_ge
  unfold binaryExponent
  simp only
  by_cases h : powerAtMost ((Nat.log2 num : Int) - Nat.log2 den) num den = true
  · rw [if_pos h]
    exact ⟨(powerAtMost_iff _ num hden).mp h, hlt⟩
  · rw [if_neg h, sub_add_cancel]
    rw [powerAtMost_iff _ num hden, not_le] at h
    exact ⟨hge, h⟩

namespace Format

variable (f : Format)

/-- The number of significands of one length, which is the least of full length. -/
def unit : Nat := Nat.pow 2 f.fractionBits

/-- The number that a finite magnitude pattern stands for. -/
def value (m : Nat) : ℚ := (f.split m).1 * 2 ^ (f.split m).2

/-- The distance to the next pattern's number. -/
def ulp (m : Nat) : ℚ := 2 ^ (f.split m).2

theorem unit_pos : 0 < f.unit := Nat.pow_pos (by decide)

variable {f} {field significand : Nat}

theorem split_eq (hlow : field = 0 ∨ f.unit ≤ significand) (hhigh : significand < 2 * f.unit) :
    f.split (field * f.unit + significand) = (significand, f.minExponent + field) := by
  have hpos := f.unit_pos
  change (if (field * f.unit + significand) / f.unit = 0
    then ((field * f.unit + significand) % f.unit, f.minExponent)
    else (f.unit + (field * f.unit + significand) % f.unit,
      f.minExponent + (((field * f.unit + significand) / f.unit : Nat) - 1 : Int))) = _
  rw [Nat.mul_comm, Nat.mul_add_div hpos, Nat.mul_add_mod]
  by_cases hfull : f.unit ≤ significand
  · have hdiv : significand / f.unit = 1 := by
      rw [Nat.div_eq_iff hpos]
      omega
    have hmod : significand % f.unit = significand - f.unit := by
      rw [Nat.mod_eq_sub_mod hfull, Nat.mod_eq_of_lt (by omega)]
    rw [hdiv, hmod, if_neg (by omega), Prod.mk.injEq]
    exact ⟨by omega, by push_cast; omega⟩
  · obtain rfl := hlow.resolve_right hfull
    rw [Nat.div_eq_of_lt (by omega), Nat.mod_eq_of_lt (by omega), if_pos rfl]
    simp

/-- Every pattern has an exponent and a significand, which is of full length but at the lowest
    exponent. -/
theorem exists_split (m : Nat) : ∃ field significand,
    m = field * f.unit + significand ∧ (field = 0 ∨ f.unit ≤ significand) ∧
      significand < 2 * f.unit := by
  have hpos := f.unit_pos
  have hm := Nat.div_add_mod m f.unit
  have hmod := Nat.mod_lt m hpos
  by_cases hfield : m / f.unit = 0
  · refine ⟨0, m, by omega, .inl rfl, ?_⟩
    rw [hfield, Nat.mul_zero] at hm
    omega
  · obtain ⟨field, hfield⟩ := Nat.exists_eq_succ_of_ne_zero hfield
    rw [hfield, Nat.mul_succ, Nat.mul_comm] at hm
    exact ⟨field, f.unit + m % f.unit, by omega, .inr (by omega), by omega⟩

/-- The numbers of one exponent, the next power of two included. -/
theorem value_eq (hlow : field = 0 ∨ f.unit ≤ significand) (hhigh : significand ≤ 2 * f.unit) :
    f.value (field * f.unit + significand) = significand * 2 ^ (f.minExponent + field) := by
  rcases hhigh.lt_or_eq with hlt | rfl
  · rw [value, split_eq hlow hlt]
  · have hpos := f.unit_pos
    have hnext : field * f.unit + 2 * f.unit = (field + 1) * f.unit + f.unit := by ring
    rw [hnext, value, split_eq (.inr le_rfl) (by omega)]
    push_cast
    rw [← add_assoc, zpow_add_one₀ (by norm_num)]
    ring

theorem ulp_eq (hlow : field = 0 ∨ f.unit ≤ significand) (hhigh : significand < 2 * f.unit) :
    f.ulp (field * f.unit + significand) = 2 ^ (f.minExponent + field) := by
  rw [ulp, split_eq hlow hhigh]

theorem pattern_mod_two (hbits : 0 < f.fractionBits) :
    (field * f.unit + significand) % 2 = significand % 2 := by
  have hunit : f.unit % 2 = 0 := by
    obtain ⟨k, hk⟩ := Nat.exists_eq_succ_of_ne_zero hbits.ne'
    rw [unit, hk, Nat.pow_eq, Nat.pow_succ]
    omega
  rw [Nat.add_mod, Nat.mul_mod, hunit]
  omega

variable (f)

theorem value_zero : f.value 0 = 0 := by
  simp [value, split]

theorem ulp_pos (m : Nat) : 0 < f.ulp m := by
  unfold ulp
  positivity

theorem value_succ (m : Nat) : f.value (m + 1) = f.value m + f.ulp m := by
  obtain ⟨field, significand, rfl, hlow, hhigh⟩ := f.exists_split m
  rw [ulp_eq hlow hhigh, value_eq hlow hhigh.le, Nat.add_assoc, value_eq (by omega) hhigh]
  push_cast
  ring

theorem value_strictMono : StrictMono f.value := by
  apply strictMono_nat_of_lt_succ
  intro m
  rw [value_succ]
  linarith [f.ulp_pos m]

/-- A number lies between those halfway to the neighbours of a pattern, and on the half way only if
    the pattern is even. -/
structure Rounds (x : ℚ) (m : Nat) : Prop where
  low_le : f.value (m - 1) + f.value m ≤ 2 * x
  le_high : 2 * x ≤ f.value m + f.value (m + 1)
  even_of_tie : f.value (m - 1) + f.value m = 2 * x ∨ 2 * x = f.value m + f.value (m + 1) →
    m % 2 = 0

namespace Rounds

variable {f} {x : ℚ} {m other : Nat}

theorem lt_value (h : f.Rounds x m) (hlt : m < other) : x < f.value other := by
  have hnext := f.value_strictMono.monotone (Nat.succ_le_of_lt hlt)
  rw [Nat.succ_eq_add_one] at hnext
  linarith [h.le_high, f.value_strictMono hlt]

theorem value_lt (h : f.Rounds x m) (hlt : other < m) : f.value other < x := by
  have hprevious := f.value_strictMono.monotone (Nat.le_sub_one_of_lt hlt)
  linarith [h.low_le, f.value_strictMono hlt]

end Rounds

/-- The significand of a quotient at an exponent. -/
def significandAt (num den : Nat) (exponent : Int) : Nat :=
  if 0 ≤ exponent then roundQuotient num (den * Nat.pow 2 exponent.toNat)
  else roundQuotient (num * Nat.pow 2 (-exponent).toNat) den

theorem nearest_significandAt (num : Nat) {den : Nat} (hden : 0 < den) (exponent : Int) :
    Nearest ((num : ℚ) / den / 2 ^ exponent) (significandAt num den exponent) := by
  rw [significandAt]
  by_cases he : 0 ≤ exponent
  · obtain ⟨k, rfl⟩ := Int.eq_ofNat_of_zero_le he
    have hquot : (num : ℚ) / den / 2 ^ (k : Int) = num / (den * Nat.pow 2 k : Nat) := by
      rw [zpow_natCast, div_div, Nat.pow_eq]
      push_cast
      rfl
    rw [if_pos he, Int.toNat_natCast, hquot]
    exact nearest_roundQuotient num (Nat.mul_pos hden (Nat.pow_pos (by decide)))
  · obtain ⟨k, hk⟩ := Int.eq_ofNat_of_zero_le (by omega : 0 ≤ -exponent)
    obtain rfl : exponent = -(k : Int) := by omega
    have hquot : (num : ℚ) / den / 2 ^ (-(k : Int)) = (num * Nat.pow 2 k : Nat) / den := by
      rw [zpow_neg, zpow_natCast, div_inv_eq_mul, div_mul_eq_mul_div, Nat.pow_eq]
      push_cast
      rfl
    rw [if_neg he, neg_neg, Int.toNat_natCast, hquot]
    exact nearest_roundQuotient _ hden

/-- A number is rounded at the exponent that gives a significand of full length, or else at the
    lowest. -/
structure RoundsAt (x : ℚ) (field significand : Nat) : Prop where
  nearest : Nearest (x / 2 ^ (f.minExponent + field)) significand
  lt : x < 2 * f.unit * 2 ^ (f.minExponent + field)
  le : field = 0 ∨ f.unit * 2 ^ (f.minExponent + field) ≤ x

theorem exists_roundsAt {num den : Nat} (hnum : 0 < num) (hden : 0 < den) :
    ∃ field significand, f.round num den = min (field * f.unit + significand) f.infinity ∧
      f.RoundsAt (num / den) field significand := by
  obtain ⟨hge, hlt⟩ := binaryExponent_spec hnum hden
  obtain ⟨exponent, hexponent⟩ : ∃ exponent, exponent =
    max (binaryExponent num den - (f.fractionBits : Int)) f.minExponent := ⟨_, rfl⟩
  have h2 : (2 : ℚ) ≠ 0 := by norm_num
  have hunit : (f.unit : ℚ) = 2 ^ (f.fractionBits : Int) := by
    rw [unit, zpow_natCast]
    exact_mod_cast rfl
  have hfield : f.minExponent + ((exponent - f.minExponent).toNat : Int) = exponent := by omega
  refine ⟨(exponent - f.minExponent).toNat, significandAt num den exponent, ?_, ?_, ?_, ?_⟩
  · rw [round, if_neg (by simp [hnum.ne', hden.ne']), ← hexponent]
    rfl
  · rw [hfield]
    exact nearest_significandAt num hden exponent
  · rw [hfield, hunit, ← zpow_one_add₀ h2, ← zpow_add₀ h2]
    refine hlt.trans_le (zpow_le_zpow_right₀ (by norm_num) ?_)
    omega
  · rw [hfield, hunit, ← zpow_add₀ h2]
    by_cases hmin : exponent = f.minExponent
    · exact .inl (by omega)
    · refine .inr ((zpow_le_zpow_right₀ (by norm_num) ?_).trans hge)
      omega

namespace RoundsAt

variable {f} {x : ℚ} {field significand : Nat}

theorem significand_le (h : f.RoundsAt x field significand) : significand ≤ 2 * f.unit := by
  have hpos : (0 : ℚ) < 2 ^ (f.minExponent + field : Int) := by positivity
  have hlt := (div_lt_iff₀ hpos).mpr h.lt
  have hle : (2 * significand : ℚ) < 4 * f.unit + 1 := by linarith [h.nearest.le_add]
  have hle' : 2 * significand < 4 * f.unit + 1 := by exact_mod_cast hle
  omega

theorem full (h : f.RoundsAt x field significand) : field = 0 ∨ f.unit ≤ significand := by
  have hpos : (0 : ℚ) < 2 ^ (f.minExponent + field : Int) := by positivity
  refine h.le.imp_right fun hle => ?_
  have hle := (le_div_iff₀ hpos).mpr hle
  have hge : (2 * f.unit : ℚ) ≤ 2 * significand + 1 := by linarith [h.nearest.add_le]
  have hge' : 2 * f.unit ≤ 2 * significand + 1 := by exact_mod_cast hge
  omega

theorem value_eq (h : f.RoundsAt x field significand) :
    f.value (field * f.unit + significand) = significand * 2 ^ (f.minExponent + field) :=
  Format.value_eq h.full h.significand_le

theorem value_next (h : f.RoundsAt x field significand) :
    f.value (field * f.unit + significand) + 2 ^ (f.minExponent + field) ≤
      f.value (field * f.unit + significand + 1) := by
  rw [value_succ, add_le_add_iff_left]
  rcases h.significand_le.lt_or_eq with hlt | rfl
  · exact (ulp_eq h.full hlt).ge
  · have hpos := f.unit_pos
    have hnext : field * f.unit + 2 * f.unit = (field + 1) * f.unit + f.unit := by ring
    rw [hnext, ulp_eq (.inr le_rfl) (by omega)]
    refine zpow_le_zpow_right₀ (by norm_num) ?_
    omega

/-- The pattern before is as far away, unless the number is not below that of the pattern. -/
theorem value_previous (h : f.RoundsAt x field significand)
    (hpos : 0 < field * f.unit + significand) :
    f.value (field * f.unit + significand - 1) + 2 ^ (f.minExponent + field) =
        f.value (field * f.unit + significand) ∨
      f.value (field * f.unit + significand) ≤ x := by
  by_cases hinner : field = 0 ∨ f.unit < significand
  · have hone : 1 ≤ significand := by
      rcases hinner with hzero | hlt
      · rw [hzero, Nat.zero_mul] at hpos
        omega
      · omega
    have hle := h.significand_le
    have hprevious := f.value_succ (field * f.unit + significand - 1)
    rw [Nat.sub_add_cancel hpos, Nat.add_sub_assoc hone, ulp_eq (by omega) (by omega)] at hprevious
    rw [Nat.add_sub_assoc hone]
    exact .inl hprevious.symm
  · rw [not_or] at hinner
    have heq : significand = f.unit := by
      have hfull := h.full
      omega
    rw [h.value_eq, heq]
    exact .inr (h.le.resolve_left hinner.1)

/-- The number of the pattern is not more than half of the last bit away. -/
theorem near (h : f.RoundsAt x field significand) (hbits : 0 < f.fractionBits) :
    2 * f.value (field * f.unit + significand) ≤ 2 * x + 2 ^ (f.minExponent + field) ∧
      2 * x ≤ 2 * f.value (field * f.unit + significand) + 2 ^ (f.minExponent + field) ∧
      (2 * f.value (field * f.unit + significand) = 2 * x + 2 ^ (f.minExponent + field) ∨
        2 * x = 2 * f.value (field * f.unit + significand) + 2 ^ (f.minExponent + field) →
        (field * f.unit + significand) % 2 = 0) := by
  have hpos : (0 : ℚ) < 2 ^ (f.minExponent + field : Int) := by positivity
  obtain ⟨hle, hle', htie⟩ := h.nearest
  rw [h.value_eq, pattern_mod_two hbits]
  generalize (2 : ℚ) ^ (f.minExponent + field : Int) = w at *
  obtain ⟨y, rfl⟩ : ∃ y, x = y * w := ⟨x / w, (div_mul_cancel₀ x hpos.ne').symm⟩
  rw [mul_div_cancel_right₀ y hpos.ne'] at hle hle' htie
  refine ⟨?_, ?_, fun hw => htie ?_⟩
  · linarith [mul_le_mul_of_nonneg_right hle hpos.le]
  · linarith [mul_le_mul_of_nonneg_right hle' hpos.le]
  · refine hw.imp (fun hw => ?_) (fun hw => ?_)
    · apply mul_right_cancel₀ hpos.ne'
      linarith
    · apply mul_right_cancel₀ hpos.ne'
      linarith

/-- The pattern of the significand is the only one that the number lies next to. -/
theorem eq_of_rounds (h : f.RoundsAt x field significand) (hbits : 0 < f.fractionBits) {m : Nat}
    (hm : f.Rounds x m) : field * f.unit + significand = m := by
  obtain ⟨hnear, hnear', heven⟩ := h.near hbits
  have hpos : (0 : ℚ) < 2 ^ (f.minExponent + field : Int) := by positivity
  have hmono := f.value_strictMono.monotone
  have hinjective := f.value_strictMono.injective
  obtain ⟨hlow, hhigh, htie⟩ := hm
  rcases lt_trichotomy (field * f.unit + significand) m with hlt | heq | hgt
  · -- the number would lie halfway between the two patterns
    have hnext := h.value_next
    have hle := hmono (Nat.le_sub_one_of_lt hlt)
    have hle' := hmono (Nat.succ_le_of_lt hlt)
    rw [Nat.succ_eq_add_one] at hle'
    have heq : field * f.unit + significand = m - 1 := hinjective (by linarith)
    have hpattern := heven (.inr (by linarith))
    have hm := htie (.inl (by linarith))
    omega
  · exact heq
  · have hle := hmono (Nat.le_sub_one_of_lt hgt)
    have hle' := hmono (Nat.succ_le_of_lt hgt)
    rw [Nat.succ_eq_add_one] at hle'
    rcases h.value_previous (by omega) with hprevious | hge
    · have heq : m + 1 = field * f.unit + significand := hinjective (by linarith)
      have hpattern := heven (.inl (by linarith))
      have hm := htie (.inr (by linarith))
      omega
    · have hlt := f.value_strictMono (Nat.sub_one_lt (by omega : field * f.unit + significand ≠ 0))
      linarith

end RoundsAt

/-- A quotient is rounded to the pattern that it lies next to. -/
theorem round_eq_of_rounds (hbits : 0 < f.fractionBits) {num den m : Nat} (hnum : 0 < num)
    (hden : 0 < den) (hm : m ≤ f.infinity) (h : f.Rounds (num / den) m) : f.round num den = m := by
  obtain ⟨field, significand, hround, hat⟩ := f.exists_roundsAt hnum hden
  rw [hround, hat.eq_of_rounds hbits h, Nat.min_eq_left hm]

/-- A quotient is rounded to no pattern above one that it is not above. -/
theorem round_le (hbits : 0 < f.fractionBits) {num den m : Nat} (hnum : 0 < num) (hden : 0 < den)
    (h : (num : ℚ) / den ≤ f.value m) : f.round num den ≤ m := by
  obtain ⟨field, significand, hround, hat⟩ := f.exists_roundsAt hnum hden
  rw [hround]
  apply (Nat.min_le_left _ _).trans
  by_contra hlt
  rw [not_le] at hlt
  have habove := f.value_strictMono hlt
  have hprevious := f.value_strictMono.monotone (Nat.le_sub_one_of_lt hlt)
  have hweight : (0 : ℚ) < 2 ^ (f.minExponent + field : Int) := by positivity
  obtain ⟨hnear, -, -⟩ := hat.near hbits
  rcases hat.value_previous (by omega) with heq | hle
  · linarith
  · linarith

end Format

end ExprLang.Number
