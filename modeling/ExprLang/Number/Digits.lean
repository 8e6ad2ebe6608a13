/-!
# Digits

The values of digits and of runs of digits.
-/

namespace ExprLang.Number

/-- The value of a decimal digit. -/
def decimalDigit? (c : Char) : Option Nat :=
  if '0' ≤ c ∧ c ≤ '9' then some (c.toNat - '0'.toNat) else none

/-- The value of a hexadecimal digit. -/
def hexadecimalDigit? (c : Char) : Option Nat :=
  if '0' ≤ c ∧ c ≤ '9' then some (c.toNat - '0'.toNat)
  else if 'a' ≤ c ∧ c ≤ 'f' then some (c.toNat - 'a'.toNat + 10)
  else if 'A' ≤ c ∧ c ≤ 'F' then some (c.toNat - 'A'.toNat + 10)
  else none

/-- The number that digits of a base write, most significant first, continuing from `acc`. -/
def digitsValue? (base : Nat) (digit? : Char → Option Nat) (acc : Nat) : List Char → Option Nat
  | [] => some acc
  | c :: cs =>
    match digit? c with
    | some d => digitsValue? base digit? (base * acc + d) cs
    | none => none

/-- The natural number written by one or more decimal digits. -/
def natural? : List Char → Option Nat
  | [] => none
  | cs => digitsValue? 10 decimalDigit? 0 cs

end ExprLang.Number
