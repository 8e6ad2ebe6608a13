import ExprLang.Number.Binary
import ExprLang.Number.Digits

/-!
# Reading numbers from text

Whole numbers are an optional sign and decimal digits. Other numbers may also have a fraction and
an exponent, be hexadecimal with a binary exponent, or be a name for an infinity or for no number.
Single underscores may stand between digits.
-/

namespace ExprLang.Number

/-- Takes off a sign; the answer tells whether it is a minus. -/
def splitSign : List Char → Bool × List Char
  | '-' :: cs => (true, cs)
  | '+' :: cs => (false, cs)
  | cs => (false, cs)

/-- A number with a sign. -/
def signed (negative : Bool) (n : Nat) : Int :=
  if negative then -(n : Int) else (n : Int)

/-- The whole number written by an optional sign and one or more decimal digits. -/
def integer? (cs : List Char) : Option Int :=
  let (negative, digits) := splitSign cs
  (natural? digits).map (signed negative)

/-- The whole number that is written, if it is one of 64 bits with a sign. -/
def int64? (cs : List Char) : Option Int64 :=
  match integer? cs with
  | some n =>
    if Int64.minValue.toInt ≤ n ∧ n ≤ Int64.maxValue.toInt then some (Int64.ofInt n) else none
  | none => none

/-- A number as it was read: `digits · 10 ^ ten · 2 ^ two`, an infinity, or no number. -/
inductive Reading where
  | finite (negative : Bool) (digits : Nat) (ten two : Int)
  | infinite (negative : Bool)
  | nan
  deriving DecidableEq, Repr

/-- The lower case of an ASCII letter. -/
def lower (c : Char) : Char := c.toLower

/-- Whether every underscore stands between two digits; the base mark counts as a digit. The flags
    tell whether the character before is a digit and whether it is an underscore. -/
def underscoresFit (hex : Bool) (afterDigit afterUnderscore : Bool) : List Char → Bool
  | [] => !afterUnderscore
  | c :: cs =>
    if (decimalDigit? c).isSome || (hex && (hexadecimalDigit? c).isSome) then
      underscoresFit hex true false cs
    else if c = '_' then
      if afterDigit then underscoresFit hex false true cs else false
    else if afterUnderscore then false
    else underscoresFit hex false false cs

/-- The digits of a significand, with at most one point among them: their value, how many stand
    after the point, whether there is one at all, and what follows. -/
def significand (base : Nat) (digit? : Char → Option Nat) (value places : Nat)
    (point any : Bool) : List Char → Nat × Nat × Bool × List Char
  | [] => (value, places, any, [])
  | c :: cs =>
    if c = '_' then significand base digit? value places point any cs
    else if c = '.' then
      if point then (value, places, any, c :: cs)
      else significand base digit? value places true any cs
    else
      match digit? c with
      | some d =>
        significand base digit? (base * value + d) (if point then places + 1 else places) point
          true cs
      | none => (value, places, any, c :: cs)

/-- Exponents are cut off here; the value is then an infinity or zero in every format. -/
def exponentBound : Nat := 100000

/-- The digits of an exponent, up to the end of the text. -/
def exponentDigits? (value : Nat) : List Char → Option Nat
  | [] => some value
  | c :: cs =>
    if c = '_' then exponentDigits? value cs
    else
      match decimalDigit? c with
      | some d => exponentDigits? (min (10 * value + d) exponentBound) cs
      | none => none

/-- An exponent after its mark: an optional sign and digits, the first of which is no underscore. -/
def exponent? (cs : List Char) : Option Int :=
  let (negative, digits) := splitSign cs
  match digits with
  | [] => none
  | c :: _ =>
    if (decimalDigit? c).isSome then (exponentDigits? 0 digits).map (signed negative) else none

/-- A number in decimal notation, without its sign. -/
def decimalReading? (negative : Bool) (cs : List Char) : Option Reading :=
  let (value, places, any, rest) := significand 10 decimalDigit? 0 0 false false cs
  if !any then none
  else
    match rest with
    | [] => some (.finite negative value (-(places : Int)) 0)
    | c :: exponent =>
      if lower c = 'e' then
        (exponent? exponent).map fun e => .finite negative value (e - (places : Int)) 0
      else none

/-- A number in hexadecimal notation, without its sign and base mark; the exponent is obligatory. -/
def hexadecimalReading? (negative : Bool) (cs : List Char) : Option Reading :=
  let (value, places, any, rest) := significand 16 hexadecimalDigit? 0 0 false false cs
  if !any then none
  else
    match rest with
    | [] => none
    | c :: exponent =>
      if lower c = 'p' then
        (exponent? exponent).map fun e => .finite negative value 0 (e - 4 * (places : Int))
      else none

/-- Reads a number. -/
def reading? (cs : List Char) : Option Reading :=
  let (negative, body) := splitSign cs
  let word := String.ofList (body.map lower)
  if word = "inf" || word = "infinity" then some (.infinite negative)
  else if (cs.map lower) = ['n', 'a', 'n'] then some .nan
  else
    match body with
    | '0' :: x :: c :: rest =>
      if lower x = 'x' then
        if underscoresFit true true false (c :: rest) then
          hexadecimalReading? negative (c :: rest)
        else none
      else if underscoresFit false false false body then decimalReading? negative body else none
    | _ =>
      if underscoresFit false false false body then decimalReading? negative body else none

/-- Numbers of this many digits before the point are infinite, and those of as many zeros after it
    are zero, in every format. -/
def decimalBound : Int := 400

/-- The magnitude pattern nearest to `digits · 10 ^ ten · 2 ^ two`. -/
def Format.ofReading (f : Format) (digits : Nat) (ten two : Int) : Nat :=
  if digits = 0 then 0
  else
    let length : Int := ((Nat.toDigits 10 digits).length : Int)
    if decimalBound < length + ten then f.infinity
    else if length + ten < -decimalBound then 0
    else
      let num := digits * Nat.pow 10 ten.toNat * Nat.pow 2 two.toNat
      let den := Nat.pow 10 (-ten).toNat * Nat.pow 2 (-two).toNat
      f.round num den

end ExprLang.Number
