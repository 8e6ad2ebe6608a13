import ExprLang.Number.Shortest

/-!
# Writing decimals down

A decimal is written plainly or with an exponent, by the place of its first digit. A `Layout` says
which.
-/

namespace ExprLang.Number

/-- The rules of a written form. With `x = d.ddd · 10 ^ e`, the plain form is used when
    `plainFrom ≤ e < plainBelow`. -/
structure Layout where
  plainFrom : Int
  plainBelow : Int
  /-- Whether a whole number is written with `.0`. -/
  keepPoint : Bool
  deriving DecidableEq, Repr

/-- The decimal digits of a number. -/
def digitText (n : Nat) : List Char :=
  Nat.toDigits 10 n

/-- A decimal without an exponent: `12300`, `1.23`, `0.00123`. -/
def Decimal.plain (d : Decimal) (keepPoint : Bool) : List Char :=
  let digits := digitText d.digits
  if 0 ≤ d.exponent then
    digits ++ List.replicate d.exponent.toNat '0' ++ (if keepPoint then ['.', '0'] else [])
  else
    let places := (-d.exponent).toNat
    if digits.length ≤ places then
      '0' :: '.' :: List.replicate (places - digits.length) '0' ++ digits
    else
      digits.take (digits.length - places) ++ '.' :: digits.drop (digits.length - places)

/-- The exponent of a decimal's first digit. -/
def Decimal.order (d : Decimal) : Int :=
  d.exponent + ((digitText d.digits).length : Int) - 1

/-- A decimal with an exponent of at least two digits and a sign: `1.23e+20`. -/
def Decimal.scientific (d : Decimal) : List Char :=
  let digits := digitText d.digits
  let order := d.order
  let magnitude := digitText order.natAbs
  digits.take 1 ++ (if digits.length ≤ 1 then [] else '.' :: digits.drop 1)
    ++ 'e' :: (if order < 0 then '-' else '+')
    :: (if magnitude.length < 2 then '0' :: magnitude else magnitude)

/-- A positive decimal in the written form that the layout asks for. -/
def Layout.write (l : Layout) (d : Decimal) : List Char :=
  if l.plainFrom ≤ d.order ∧ d.order < l.plainBelow then d.plain l.keepPoint else d.scientific

/-- Zero in the written form of the layout. -/
def Layout.zero (l : Layout) : List Char :=
  if l.keepPoint then ['0', '.', '0'] else ['0']

end ExprLang.Number
