import ExprLang.Number.Binary

/-!
# Shortest decimal digits

The fewest decimal digits that still round to a given binary value, and of those the nearest to it.
For each number of digits only the two grid points around the value have to be tried.
-/

namespace ExprLang.Number

/-- A positive decimal number `digits · 10 ^ exponent`. -/
structure Decimal where
  digits : Nat
  exponent : Int
  deriving DecidableEq, Repr

/-- A binary value and the ends of the interval of numbers that round to it, all in units of
    `1 / scale`. -/
structure Interval where
  low : Nat
  value : Nat
  high : Nat
  scale : Nat
  closed : Bool
  deriving DecidableEq, Repr

/-- The interval around the value of a finite positive magnitude pattern. The values below a power
    of two lie half as far apart as those above. -/
def Format.interval (f : Format) (magnitude : Nat) : Interval :=
  let (significand, exponent) := f.split magnitude
  let below := if significand = Nat.pow 2 f.fractionBits ∧ f.minExponent < exponent then 1 else 2
  let unit := if 2 ≤ exponent then Nat.pow 2 (exponent - 2).toNat else 1
  { low := (4 * significand - below) * unit
    value := 4 * significand * unit
    high := (4 * significand + 2) * unit
    scale := if 2 ≤ exponent then 1 else Nat.pow 2 (2 - exponent).toNat
    closed := significand % 2 = 0 }

/-- `10 ^ e` as a quotient of whole numbers. -/
def powerOfTen (e : Int) : Nat × Nat :=
  if 0 ≤ e then (Nat.pow 10 e.toNat, 1) else (1, Nat.pow 10 (-e).toNat)

/-- Whether the value lies below `10 ^ e`. -/
def Interval.below (i : Interval) (e : Int) : Bool :=
  let (num, den) := powerOfTen e
  decide (i.value * den < num * i.scale)

/-- The exponent `e` with `10 ^ (e - 1) ≤ value < 10 ^ e`: the binary exponent gives it up to one
    or two steps. -/
def Interval.decimalExponent (i : Interval) : Int :=
  let guess := Int.fdiv (binaryExponent i.value i.scale * 30103) 100000
  if i.below guess then guess
  else if i.below (guess + 1) then guess + 1
  else guess + 2

/-- Whether `n · 10 ^ e` rounds to the interval's value. -/
def Interval.accepts (i : Interval) (n : Nat) (e : Int) : Bool :=
  let (num, den) := powerOfTen e
  let x := n * num * i.scale
  if i.closed then decide (i.low * den ≤ x ∧ x ≤ i.high * den)
  else decide (i.low * den < x ∧ x < i.high * den)

/-- Of the two neighbours of the value on the grid of step `10 ^ e`, the one that rounds to the
    value; of two, the nearer; at the same distance, the even one. -/
def Interval.candidate? (i : Interval) (e : Int) : Option Nat :=
  let (num, den) := powerOfTen e
  let step := num * i.scale
  let lower := i.value * den / step
  let rest := i.value * den % step
  match i.accepts lower e, i.accepts (lower + 1) e with
  | false, false => none
  | true, false => some lower
  | false, true => some (lower + 1)
  | true, true =>
    if 2 * rest < step then some lower
    else if step < 2 * rest then some (lower + 1)
    else if lower % 2 = 0 then some lower else some (lower + 1)

/-- Drops the zeros at the end of the digits, at most `budget` of them. -/
def stripZeros : Nat → Nat → Int → Decimal
  | 0, digits, exponent => ⟨digits, exponent⟩
  | budget + 1, digits, exponent =>
    if digits ≠ 0 ∧ digits % 10 = 0 then stripZeros budget (digits / 10) (exponent + 1)
    else ⟨digits, exponent⟩

/-- Tries the grids of `count`, `count + 1`, … digits, `budget` grids in all. -/
def Interval.search (i : Interval) (top : Int) : Nat → Nat → Decimal
  | 0, count => ⟨i.value * Nat.pow 10 count / i.scale, -(count : Int)⟩
  | budget + 1, count =>
    match i.candidate? (top - (count : Int)) with
    | some n => stripZeros (count + 1) n (top - (count : Int))
    | none => i.search top budget (count + 1)

/-- The shortest decimal that rounds to the value of a finite positive magnitude pattern. Seventeen
    digits always suffice for eight-byte numbers. -/
def Format.shortest (f : Format) (magnitude : Nat) : Decimal :=
  let i := f.interval magnitude
  i.search i.decimalExponent 17 1

end ExprLang.Number
