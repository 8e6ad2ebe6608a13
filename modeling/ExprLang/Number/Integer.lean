/-!
# Wrapping 64-bit integers

Arithmetic is modulo `2 ^ 64`. Division and remainder go toward the floor, and shifts by the width
or more push every bit out. Numbers of any size keep their lowest 64 bits.
-/

namespace ExprLang.Number

/-- The bits of a whole number in two's complement that a mask keeps. Those of a negative number are
    the ones that the number below its magnitude has not. -/
def maskBits (mask : Nat) : Int → Nat
  | .ofNat n => n &&& mask
  | .negSucc n => mask ^^^ (n &&& mask)

/-- The lowest 64 bits of a whole number of any size, taken as a signed number (`wrapBigInt`). -/
def wrapBig (n : Int) : Int64 := (UInt64.ofNat (maskBits 0xFFFFFFFFFFFFFFFF n)).toInt64

/-- Division toward the floor, for a divisor that is not zero. -/
def floorDiv (a b : Int64) : Int64 :=
  let q := a / b
  if a % b ≠ 0 ∧ decide (a < 0) ≠ decide (b < 0) then q - 1 else q

/-- The remainder of `floorDiv`: zero, or of the sign of the divisor. -/
def floorMod (a b : Int64) : Int64 :=
  let m := a % b
  if m ≠ 0 ∧ decide (m < 0) ≠ decide (b < 0) then m + b else m

/-- Powers by repeated squaring. -/
def intPow (base : Int64) (exponent : Nat) : Int64 :=
  if exponent = 0 then 1
  else
    let rest := intPow (base * base) (exponent / 2)
    if exponent % 2 = 1 then base * rest else rest
termination_by exponent
decreasing_by omega

/-- A shift to the left by a count that is not negative. -/
def shiftLeft (n count : Int64) : Int64 :=
  if count < 64 then n <<< count else 0

/-- A shift to the right that copies the sign, by a count that is not negative. -/
def shiftRight (n count : Int64) : Int64 :=
  if count < 64 then n >>> count else if n < 0 then -1 else 0

/-- A shift to the right that fills with zeros, by a count that is not negative. -/
def shiftRightUnsigned (n count : Int64) : Int64 :=
  if count < 64 then (n.toUInt64 >>> count.toUInt64).toInt64 else 0

end ExprLang.Number
