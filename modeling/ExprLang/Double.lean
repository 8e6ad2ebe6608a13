import ExprLang.Number.Layout
import ExprLang.Number.Reading

/-!
# Doubles

Eight-byte binary numbers, held as their bit pattern. Order, equality, conversion and text are
computed from the pattern; sums, products, quotients, powers and roots are those of the machine.
-/

namespace ExprLang

/-- An eight-byte binary floating-point number. -/
structure Double where
  bits : UInt64
  deriving DecidableEq, Repr

namespace Double

open Number

/-- The pattern without its sign. -/
def magnitude (x : Double) : Nat := x.bits.toNat % Format.double.signBit

/-- Whether the sign bit is set. -/
def isNegative (x : Double) : Bool := decide (Format.double.signBit ≤ x.bits.toNat)

/-- The number with the given sign and magnitude pattern. -/
def ofMagnitude (negative : Bool) (magnitude : Nat) : Double :=
  ⟨UInt64.ofNat (if negative then Format.double.signBit + magnitude else magnitude)⟩

/-- What is no number. -/
def nan : Double := ⟨0x7FF8000000000000⟩

/-- Infinity with a sign. -/
def infinity (negative : Bool) : Double := ofMagnitude negative Format.double.infinity

/-- Whether the pattern stands for no number. -/
def isNaN (x : Double) : Bool := decide (Format.double.infinity < x.magnitude)

/-- Whether the pattern is that of an infinity. -/
def isInfinite (x : Double) : Bool := decide (x.magnitude = Format.double.infinity)

/-- Whether the pattern stands for a finite number. -/
def isFinite (x : Double) : Bool := decide (x.magnitude < Format.double.infinity)

/-- Whether the number is a zero of either sign. -/
def isZero (x : Double) : Bool := decide (x.magnitude = 0)

/-- A whole number in the order of the numbers that are not NaN; both zeros have the key zero. -/
def orderKey (x : Double) : Int :=
  if x.isNegative then -(x.magnitude : Int) else (x.magnitude : Int)

/-- Numeric equality: NaN equals nothing, and both zeros are equal. -/
def equals (x y : Double) : Bool :=
  !x.isNaN && !y.isNaN && decide (x.orderKey = y.orderKey)

/-- Numeric order; NaN is in no relation. -/
def less (x y : Double) : Bool :=
  !x.isNaN && !y.isNaN && decide (x.orderKey < y.orderKey)

/-- Numeric order or equality; NaN is in no relation. -/
def lessOrEqual (x y : Double) : Bool :=
  !x.isNaN && !y.isNaN && decide (x.orderKey ≤ y.orderKey)

/-- The nearest double to a whole number. -/
def ofInt (n : Int) : Double :=
  ofMagnitude (decide (n < 0)) (Format.double.round n.natAbs 1)

/-- The double that a reading of a number stands for. -/
def ofReading : Reading → Double
  | .finite negative digits ten two =>
    ofMagnitude negative (Format.double.ofReading digits ten two)
  | .infinite negative => infinity negative
  | .nan => nan

/-- A reading of a number rounded to four bytes first. -/
def ofReadingSingle : Reading → Double
  | .finite negative digits ten two =>
    ofMagnitude negative
      (Format.convert Format.single Format.double (Format.single.ofReading digits ten two))
  | .infinite negative => infinity negative
  | .nan => nan

/-- The double that a text stands for. -/
def read? (s : String) : Option Double :=
  (reading? s.toList).map ofReading

/-- The machine's number. -/
def toFloat (x : Double) : Float := Float.ofBits x.bits

/-- The double of a machine's number. -/
def ofFloat (x : Float) : Double := ⟨x.toBits⟩

/-- The sum. -/
def add (x y : Double) : Double := ofFloat (x.toFloat + y.toFloat)
/-- The difference. -/
def sub (x y : Double) : Double := ofFloat (x.toFloat - y.toFloat)
/-- The product. -/
def mul (x y : Double) : Double := ofFloat (x.toFloat * y.toFloat)
/-- The power. -/
def pow (x y : Double) : Double := ofFloat (Float.pow x.toFloat y.toFloat)
/-- The square root. -/
def sqrt (x : Double) : Double := ofFloat (Float.sqrt x.toFloat)

/-- The quotient. A quotient by a zero of either sign is infinite with the sign of the dividend,
    unless that is zero or NaN. -/
def div (x y : Double) : Double :=
  if y.isZero then
    if x.isZero || x.isNaN then nan else infinity x.isNegative
  else ofFloat (x.toFloat / y.toFloat)

/-- The number with the opposite sign. -/
def neg (x : Double) : Double :=
  if x.isNaN then x else ofMagnitude (!x.isNegative) x.magnitude

/-- How a number that is not whole is made whole. -/
inductive Rounding where
  | up | down | nearest
  deriving DecidableEq, Repr

/-- A finite number made whole; `nearest` takes a half away from zero. -/
def toInt (mode : Rounding) (x : Double) : Int :=
  let (significand, exponent) := Format.double.split x.magnitude
  if 0 ≤ exponent then signed x.isNegative (significand * Nat.pow 2 exponent.toNat)
  else
    let den := Nat.pow 2 (-exponent).toNat
    let whole := significand / den
    let rest := significand % den
    let larger :=
      match mode with
      | .up => rest ≠ 0 && !x.isNegative
      | .down => rest ≠ 0 && x.isNegative
      | .nearest => decide (den ≤ 2 * rest)
    signed x.isNegative (if larger then whole + 1 else whole)

/-- How doubles are written as values: plainly from `1e-4` up to below `1e16`, whole numbers with
    `.0`. -/
def display : Layout := ⟨-4, 16, true⟩

/-- The sign and the digits of a finite number in a layout. -/
def write (l : Layout) (x : Double) : String :=
  let body := if x.isZero then l.zero else l.write (Format.double.shortest x.magnitude)
  String.ofList (if x.isNegative then '-' :: body else body)

/-- The text of a double (`formatDouble`). -/
def toText (x : Double) : String :=
  if x.isNaN then "NaN"
  else if x.isInfinite then (if x.isNegative then "-Inf" else "Inf")
  else x.write display

end Double

end ExprLang
