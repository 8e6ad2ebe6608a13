import ExprLang.Number.Digits

/-!
# Dates and times

Dates are written `2024-02-29` and times `12:30:00`, with fractions of a second after a point. A
zone is `Z` or a distance such as `+02:00`.
-/

namespace ExprLang.Text

/-- Whether a year has a leap day. -/
def isLeapYear (year : Nat) : Bool :=
  year % 4 = 0 && (year % 100 ≠ 0 || year % 400 = 0)

/-- The number of days of a month. -/
def daysIn (year month : Nat) : Nat :=
  if month = 2 then (if isLeapYear year then 29 else 28)
  else if month = 4 ∨ month = 6 ∨ month = 9 ∨ month = 11 then 30
  else 31

/-- A number of exactly `count` digits and what follows it. -/
def fixedDigits? (count : Nat) (cs : List Char) : Option (Nat × List Char) :=
  if cs.length < count then none
  else (Number.natural? (cs.take count)).map fun n => (n, cs.drop count)

/-- A number of exactly `count` digits below a bound, and what follows it. -/
def digitsBelow? (count bound : Nat) (cs : List Char) : Option (List Char) := do
  let (n, rest) ← fixedDigits? count cs
  if n < bound then some rest else none

/-- What follows an expected character. -/
def expect? (c : Char) : List Char → Option (List Char)
  | d :: rest => if d = c then some rest else none
  | [] => none

/-- What follows a date that there is. -/
def skipDate? (cs : List Char) : Option (List Char) := do
  let (year, cs) ← fixedDigits? 4 cs
  let cs ← expect? '-' cs
  let (month, cs) ← fixedDigits? 2 cs
  let cs ← expect? '-' cs
  let (day, cs) ← fixedDigits? 2 cs
  if 1 ≤ month ∧ month ≤ 12 ∧ 1 ≤ day ∧ day ≤ daysIn year month then some cs else none

/-- What follows a colon and minutes, or seconds. -/
def skipSixtieth? (cs : List Char) : Option (List Char) := do
  let cs ← expect? ':' cs
  digitsBelow? 2 60 cs

/-- Passes over fractions of a second. -/
def skipFraction : List Char → List Char
  | c :: d :: rest =>
    if (c = '.' || c = ',') && d.isDigit then rest.dropWhile Char.isDigit else c :: d :: rest
  | cs => cs

/-- What follows an hour of two digits. -/
def skipHour? (cs : List Char) : Option (List Char) := digitsBelow? 2 24 cs

/-- What follows an hour of one or two digits. -/
def skipLooseHour? (cs : List Char) : Option (List Char) :=
  match fixedDigits? 2 cs with
  | some _ => skipHour? cs
  | none => digitsBelow? 1 24 cs

/-- Whether the text is a zone: `Z`, or a sign with hours and minutes. -/
def isZone (cs : List Char) : Bool :=
  match cs with
  | ['Z'] => true
  | [sign, h1, h2, ':', m1, m2] =>
    (sign = '+' || sign = '-')
      && (digitsBelow? 2 25 [h1, h2]).isSome && (digitsBelow? 2 61 [m1, m2]).isSome
  | _ => false

/-- Whether a text is a date, the letter `T`, a time and a zone. The hour may have one digit only.
    -/
def isDateTime (s : String) : Bool :=
  match (do
      let cs ← skipDate? s.toList
      let cs ← expect? 'T' cs
      let cs ← skipLooseHour? cs
      let cs ← skipSixtieth? cs
      skipSixtieth? cs : Option (List Char)) with
  | some cs => isZone (skipFraction cs)
  | none => false

/-- What follows a time; the seconds may be left out. -/
def skipTime? (cs : List Char) : Option (List Char) := do
  let cs ← skipHour? cs
  let cs ← skipSixtieth? cs
  match skipSixtieth? cs with
  | some rest => return skipFraction rest
  | none => return cs

/-- Whether a text is a date, a time, or both with a `T` between them and perhaps a zone. -/
def isMoment (cs : List Char) : Bool :=
  match skipDate? cs with
  | some [] => true
  | some ('T' :: cs) =>
    match skipTime? cs with
    | some [] => true
    | some rest => isZone rest
    | none => false
  | some _ => false
  | none => skipTime? cs = some []

end ExprLang.Text
