import ExprLang.HostData
import ExprLang.Text.DateTime

/-!
# TOML words and numbers

Truth values, whole numbers in four bases, numbers with a fraction or an exponent, and moments in
time. Underscores may stand between digits. Moments have no form in the language.
-/

namespace ExprLang.Toml

/-- The digits of a number without the underscores between them. -/
def groupedDigits? (isDigit : Char → Bool) : List Char → Option (List Char)
  | [] => none
  | [c] => if isDigit c then some [c] else none
  | c :: '_' :: rest => if isDigit c then (groupedDigits? isDigit rest).map (c :: ·) else none
  | c :: rest => if isDigit c then (groupedDigits? isDigit rest).map (c :: ·) else none

/-- A digit of a base up to ten. -/
def digitBelow? (base : Nat) (c : Char) : Option Nat :=
  match Number.decimalDigit? c with
  | some d => if d < base then some d else none
  | none => none

/-- A number without a sign in a base. -/
def natural? (base : Nat) (digit? : Char → Option Nat) (cs : List Char) : Option Nat := do
  let digits ← groupedDigits? (fun c => (digit? c).isSome) cs
  Number.digitsValue? base digit? 0 digits

/-- The digits of a decimal number, which has no needless zero in front. -/
def decimalDigits? (cs : List Char) : Option (List Char) :=
  match cs with
  | '0' :: _ :: _ => none
  | _ => groupedDigits? Char.isDigit cs

/-- A decimal number with or without a sign. -/
def decimal? (cs : List Char) : Option Int := do
  let (negative, rest) := Number.splitSign cs
  let digits ← decimalDigits? rest
  let n ← Number.natural? digits
  return Number.signed negative n

/-- A whole number. Only decimal ones have signs. -/
def integer? (cs : List Char) : Option Int :=
  match cs with
  | '0' :: 'x' :: rest => (natural? 16 Number.hexadecimalDigit? rest).map Int.ofNat
  | '0' :: 'o' :: rest => (natural? 8 (digitBelow? 8) rest).map Int.ofNat
  | '0' :: 'b' :: rest => (natural? 2 (digitBelow? 2) rest).map Int.ofNat
  | _ => decimal? cs

/-- Whether a number fits into a word. -/
def fitsWord (n : Int) : Bool := decide (Int64.minValue.toInt ≤ n ∧ n ≤ Int64.maxValue.toInt)

/-- An exponent, if there is one: `e` with digits that may have a sign. -/
def exponent? : List Char → Option (List Char)
  | [] => some []
  | e :: rest =>
    if e = 'e' || e = 'E' then
      let sign := rest.takeWhile fun c => c = '+' || c = '-'
      if sign.length ≤ 1 then
        (groupedDigits? Char.isDigit (rest.drop sign.length)).map fun digits =>
          'e' :: sign ++ digits
      else none
    else none

/-- A fraction, if there is one, and an exponent. -/
def fraction? : List Char → Option (List Char)
  | '.' :: rest => do
    let places ← groupedDigits? Char.isDigit (rest.takeWhile fun c => c != 'e' && c != 'E')
    let more ← exponent? (rest.dropWhile fun c => c != 'e' && c != 'E')
    return '.' :: places ++ more
  | cs => exponent? cs

/-- A number with a fraction or an exponent; it may not be too large. -/
def float? (cs : List Char) : Option Double := do
  let (negative, rest) := Number.splitSign cs
  let isWhole := fun c => c != '.' && c != 'e' && c != 'E'
  let digits ← decimalDigits? (rest.takeWhile isWhole)
  let more ← fraction? (rest.dropWhile isWhole)
  let reading ← Number.reading? ((if negative then ['-'] else []) ++ digits ++ more)
  let x := Double.ofReading reading
  if x.isFinite then some x else none

/-- A number that has no digits. -/
def special? (cs : List Char) : Option Double :=
  let (negative, rest) := Number.splitSign cs
  if rest = ['i', 'n', 'f'] then some (Double.infinity negative)
  else if rest = ['n', 'a', 'n'] then some Double.nan
  else none

/-- Letters of moments may be small, and a blank may stand for the `T`. -/
def momentChar (c : Char) : Char :=
  if c = 'z' then 'Z' else if c = 't' || c = ' ' then 'T' else c

/-- The data that a word stands for. -/
def scalar? (cs : List Char) : Option HostData :=
  if cs = ['t', 'r', 'u', 'e'] then some (.bool true)
  else if cs = ['f', 'a', 'l', 's', 'e'] then some (.bool false)
  else
    match special? cs with
    | some x => some (.double x)
    | none =>
      match integer? cs with
      | some n => if fitsWord n then some (.int (Int64.ofInt n)) else none
      | none =>
        match float? cs with
        | some x => some (.double x)
        | none =>
          if Text.isMoment (cs.map momentChar) then some (.unsupported "time.Time") else none

end ExprLang.Toml
