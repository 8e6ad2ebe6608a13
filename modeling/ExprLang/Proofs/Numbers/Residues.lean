import ExprLang.Eval.Literal
import ExprLang.HostData

/-!
# Residues of whole numbers

Whole numbers of any size become signed numbers of 64 bits in two ways: by keeping their lowest bits
(`Number.wrapBig`), and by being read as a number that fits (`Number.int64?`). Either way the result
is the one signed number of 64 bits that is congruent to them modulo `2 ^ 64` (`Number.Wraps`).
-/

namespace ExprLang

namespace Number

/-- Among the signed numbers of 64 bits, `r` is the one congruent to `n` modulo `2 ^ 64`. -/
def Wraps (n : Int) (r : Int64) : Prop :=
  ∀ x : Int64, 0x10000000000000000 ∣ x.toInt - n ↔ x = r

theorem wraps_ofInt (n : Int) : Wraps n (Int64.ofInt n) := by
  intro x
  have hlow := x.le_toInt
  have hhigh := x.toInt_lt
  rw [eq_comm, Int64.ofInt_eq_iff_bmod_eq_toInt, Int.bmod_eq_iff (by decide)]
  constructor
  · intro hdvd
    exact ⟨by omega, by omega, hdvd⟩
  · exact fun h => h.2.2

theorem Wraps.unique {n : Int} {r r' : Int64} (h : Wraps n r) (h' : Wraps n r') : r = r' :=
  (h' r).mp ((h r).mpr rfl)

theorem Wraps.eq_ofInt {n : Int} {r : Int64} (h : Wraps n r) : r = Int64.ofInt n :=
  h.unique (wraps_ofInt n)

/-- A number that fits is its own residue. -/
theorem wraps_toInt (r : Int64) : Wraps r.toInt r := by
  have h := wraps_ofInt r.toInt
  rwa [Int64.ofInt_toInt] at h

/-- Wrapping before a number is negated comes to the same as after it. -/
theorem Wraps.neg {n : Int} {r : Int64} (h : Wraps n r) : Wraps (-n) (-r) := by
  have hneg := wraps_ofInt (-n)
  rwa [Int64.ofInt_neg, ← h.eq_ofInt] at hneg

/-! ## Masks -/

theorem and_allOnes (n : Nat) : n &&& 0xFFFFFFFFFFFFFFFF = n % 0x10000000000000000 :=
  Nat.and_two_pow_sub_one_eq_mod n 64

/-- To change every bit is to take the number away from the mask. -/
theorem allOnes_xor {n : Nat} (h : n < 0x10000000000000000) :
    0xFFFFFFFFFFFFFFFF ^^^ n = 0xFFFFFFFFFFFFFFFF - n := by
  have hflip : 2 ^ 64 - (n + 1) = 0xFFFFFFFFFFFFFFFF - n := by omega
  have hmask (i : Nat) : Nat.testBit 0xFFFFFFFFFFFFFFFF i = decide (i < 64) :=
    Nat.testBit_two_pow_sub_one 64 i
  refine Nat.eq_of_testBit_eq fun i => ?_
  rw [← hflip, Nat.testBit_two_pow_sub_succ h, Nat.testBit_xor, hmask]
  by_cases hi : i < 64
  · simp [hi]
  · have hpow : 2 ^ 64 ≤ 2 ^ i := Nat.pow_le_pow_right Nat.two_pos (Nat.le_of_not_lt hi)
    have hhigh : n.testBit i = false := Nat.testBit_lt_two_pow (Nat.lt_of_lt_of_le h hpow)
    simp [hi, hhigh]

/-- The bits that a full mask keeps are the residue that is not negative: what is missing to the
    mask makes the residue of a negative number. -/
theorem maskBits_allOnes (n : Int) :
    (maskBits 0xFFFFFFFFFFFFFFFF n : Int) = n % 0x10000000000000000 := by
  cases n with
  | ofNat n =>
    rw [maskBits, and_allOnes]
    rfl
  | negSucc n =>
    have hlt : n % 0x10000000000000000 < 0x10000000000000000 := Nat.mod_lt n (by decide)
    rw [maskBits, and_allOnes, allOnes_xor hlt]
    omega

/-- The lowest bits of a number of any size are its residue. -/
theorem wraps_wrapBig (n : Int) : Wraps n (wrapBig n) := by
  intro x
  have hbits := maskBits_allOnes n
  have hmasked : 0x10000000000000000 ∣ x.toInt - maskBits 0xFFFFFFFFFFFFFFFF n ↔ x = wrapBig n :=
    wraps_ofInt _ x
  rw [← hmasked, hbits]
  omega

theorem wrapBig_eq_ofInt (n : Int) : wrapBig n = Int64.ofInt n := (wraps_wrapBig n).eq_ofInt

/-! ## Numbers that fit -/

/-- What is read as a number of 64 bits is the number that is written. -/
theorem integer?_of_int64? {cs : List Char} {r : Int64} (h : int64? cs = some r) :
    integer? cs = some r.toInt := by
  unfold int64? at h
  split at h
  · next n hn =>
    split at h
    · next hfits =>
      have hhigh : n ≤ 9223372036854775807 := hfits.2
      cases h
      rw [hn, Int64.toInt_ofInt_of_le hfits.1 (by omega)]
    · cases h
  · cases h

end Number

/-! ## Values -/

/-- A whole number that was written down becomes its residue, whether it fits or not. -/
theorem numberValue_of_integer? {written : String} {n : Int}
    (h : Number.integer? written.toList = some n) :
    ∃ r, Number.Wraps n r ∧ numberValue written = .ok (.int r) := by
  unfold numberValue
  cases hfits : Number.int64? written.toList with
  | some r =>
    have hn := Number.integer?_of_int64? hfits
    rw [h, Option.some.injEq] at hn
    exact ⟨r, hn ▸ Number.wraps_toInt r, rfl⟩
  | none =>
    refine ⟨Number.wrapBig n, Number.wraps_wrapBig n, ?_⟩
    simp only [h]

theorem numberValue_eq {written : String} {n : Int}
    (h : Number.integer? written.toList = some n) :
    numberValue written = .ok (.int (Int64.ofInt n)) := by
  obtain ⟨r, hr, hvalue⟩ := numberValue_of_integer? h
  rw [hvalue, hr.eq_ofInt]

theorem numberValue_of_double {written : String} {x : Double}
    (h : Number.integer? written.toList = none) (hread : Double.read? written = some x) :
    numberValue written = .ok (.double x) := by
  have hfits : Number.int64? written.toList = none := by
    rw [Number.int64?, h]
  simp only [numberValue, hfits, h, hread]

theorem numberValue_unsupported {written : String} (h : Number.integer? written.toList = none)
    (hread : Double.read? written = none) :
    numberValue written = .error (.unsupportedNumber written) := by
  have hfits : Number.int64? written.toList = none := by
    rw [Number.int64?, h]
  simp only [numberValue, hfits, h, hread]

theorem Literal.wholeNumber_eq {base n : Nat} {digit? : Char → Option Nat} {digits : List Char}
    (hne : digits ≠ []) (h : Number.digitsValue? base digit? 0 digits = some n) :
    wholeNumber base digit? digits = .ok (.int (Number.wrapBig n)) := by
  obtain ⟨c, cs, rfl⟩ := List.exists_cons_of_ne_nil hne
  simp only [wholeNumber, h]

end ExprLang
