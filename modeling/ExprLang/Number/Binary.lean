/-!
# Binary floating-point formats

A format has a sign, an exponent field and a fraction field. A magnitude pattern below the pattern
of infinity stands for `significand · 2 ^ exponent`. Rounding to a format takes the nearest value,
of two equally near ones the one with the even significand, and infinity past the largest value.
-/

namespace ExprLang.Number

/-- A binary floating-point format, by the widths of its fields. -/
structure Format where
  fractionBits : Nat
  exponentBits : Nat
  deriving DecidableEq, Repr

/-- `num / den` rounded to the nearest whole number, a half to the even one. -/
def roundQuotient (num den : Nat) : Nat :=
  let q := num / den
  let r := num % den
  if 2 * r < den then q
  else if den < 2 * r then q + 1
  else if q % 2 = 0 then q else q + 1

/-- Whether `2 ^ e ≤ num / den`. -/
def powerAtMost (e : Int) (num den : Nat) : Bool :=
  if 0 ≤ e then decide (den * Nat.pow 2 e.toNat ≤ num)
  else decide (den ≤ num * Nat.pow 2 (-e).toNat)

/-- The exponent `e` with `2 ^ e ≤ num / den < 2 ^ (e + 1)`, for positive `num` and `den`. -/
def binaryExponent (num den : Nat) : Int :=
  let guess : Int := (Nat.log2 num : Int) - (Nat.log2 den : Int)
  if powerAtMost guess num den then guess else guess - 1

namespace Format

/-- Two-byte numbers. -/
def half : Format := ⟨10, 5⟩
/-- Four-byte numbers. -/
def single : Format := ⟨23, 8⟩
/-- Eight-byte numbers. -/
def double : Format := ⟨52, 11⟩

/-- The exponent of the smallest positive value. -/
def minExponent (f : Format) : Int :=
  2 - (Nat.pow 2 (f.exponentBits - 1) : Int) - (f.fractionBits : Int)

/-- The magnitude pattern of infinity; larger patterns are no numbers. -/
def infinity (f : Format) : Nat :=
  (Nat.pow 2 f.exponentBits - 1) * Nat.pow 2 f.fractionBits

/-- The weight of the sign bit. -/
def signBit (f : Format) : Nat :=
  Nat.pow 2 (f.exponentBits + f.fractionBits)

/-- The significand and exponent that a finite magnitude pattern stands for. -/
def split (f : Format) (magnitude : Nat) : Nat × Int :=
  let field := magnitude / Nat.pow 2 f.fractionBits
  let fraction := magnitude % Nat.pow 2 f.fractionBits
  if field = 0 then (fraction, f.minExponent)
  else (Nat.pow 2 f.fractionBits + fraction, f.minExponent + ((field : Int) - 1))

/-- The magnitude pattern nearest to `num / den`. -/
def round (f : Format) (num den : Nat) : Nat :=
  if num = 0 || den = 0 then 0
  else
    let exponent := max (binaryExponent num den - (f.fractionBits : Int)) f.minExponent
    let significand :=
      if 0 ≤ exponent then roundQuotient num (den * Nat.pow 2 exponent.toNat)
      else roundQuotient (num * Nat.pow 2 (-exponent).toNat) den
    min ((exponent - f.minExponent).toNat * Nat.pow 2 f.fractionBits + significand) f.infinity

/-- The magnitude pattern nearest to `significand · 2 ^ exponent`. -/
def roundScaled (f : Format) (significand : Nat) (exponent : Int) : Nat :=
  if 0 ≤ exponent then f.round (significand * Nat.pow 2 exponent.toNat) 1
  else f.round significand (Nat.pow 2 (-exponent).toNat)

/-- The magnitude pattern in `f` nearest to a magnitude pattern of `g`; infinity stays, and what is
    no number stays none. -/
def convert (g f : Format) (magnitude : Nat) : Nat :=
  if magnitude < g.infinity then
    let (significand, exponent) := g.split magnitude
    f.roundScaled significand exponent
  else if magnitude = g.infinity then f.infinity
  else f.infinity + Nat.pow 2 (f.fractionBits - 1)

end Format

end ExprLang.Number
