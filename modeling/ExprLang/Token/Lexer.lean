import ExprLang.Token

/-!
# From characters to tokens

At each place the text goes on with a gap (a blank or a comment) or with a token, which takes as
many characters as it can. `Token.scan` cuts a text into tokens and keeps the place of each.
-/

namespace ExprLang.Token

/-- Why no token can be read. -/
inductive LexicalError where
  | unterminatedComment
  | unterminatedText
  | unexpectedCharacter (c : Char)
  deriving DecidableEq, Repr

/-- Blanks that may stand between tokens. -/
def isBlank (c : Char) : Bool :=
  c = ' ' || c = '\t' || c = '\r' || c = '\n' || c = '\x0c' || c = '\x0b'

/-- Hexadecimal digits. -/
def isHexDigit (c : Char) : Bool :=
  c.isDigit || ('a' ≤ c && c ≤ 'f') || ('A' ≤ c && c ≤ 'F')

/-- Characters that may begin a name (`isIdentifierStart`). -/
def startsName (c : Char) : Bool :=
  c = '_' || ('a' ≤ c && c ≤ 'z') || ('A' ≤ c && c ≤ 'Z')

/-- Characters that may continue a name (`isIdentifierChar`). -/
def continuesName (c : Char) : Bool :=
  startsName c || c.isDigit

/-- The number of leading characters that satisfy `p`. -/
def runLength (p : Char → Bool) (cs : List Char) : Nat :=
  (cs.takeWhile p).length

/-- The number of characters up to the end of a `/*` comment, its closing mark included. -/
def commentLength? : List Char → Option Nat
  | '*' :: '/' :: _ => some 2
  | _ :: cs => (commentLength? cs).map (· + 1)
  | [] => none

/-- The number of characters up to the quote that closes a text literal, itself included. A
    backslash takes the next character with it. -/
def textLength? : List Char → Option Nat
  | '"' :: _ => some 1
  | '\\' :: _ :: cs => (textLength? cs).map (· + 2)
  | _ :: cs => (textLength? cs).map (· + 1)
  | [] => none

/-- The number of characters of a fraction, a point and at least one digit, at the front of `cs`. -/
def fractionLength : List Char → Nat
  | '.' :: cs => if runLength Char.isDigit cs = 0 then 0 else runLength Char.isDigit cs + 1
  | _ => 0

/-- The number of characters of an optional sign at the front of `cs`. -/
def signLength : List Char → Nat
  | '+' :: _ => 1
  | '-' :: _ => 1
  | _ => 0

/-- The number of characters of an exponent, with at least one digit, at the front of `cs`. -/
def exponentLength : List Char → Nat
  | c :: cs =>
    if c = 'e' || c = 'E' then
      let sign := signLength cs
      let digits := runLength Char.isDigit (cs.drop sign)
      if digits = 0 then 0 else 1 + sign + digits
    else 0
  | [] => 0

/-- The number of characters of a hexadecimal literal at the front of `cs`, zero if there is none.
    -/
def hexLength : List Char → Nat
  | '0' :: x :: cs =>
    if x = 'x' || x = 'X' then
      let digits := runLength isHexDigit cs
      if digits = 0 then 0 else 2 + digits
    else 0
  | _ => 0

/-- The kind and the number of characters of the number at the front of `cs` (`scanNumber`). -/
def number (cs : List Char) : LiteralKind × Nat :=
  let hex := hexLength cs
  if hex ≠ 0 then (.hex, hex)
  else
    let whole := runLength Char.isDigit cs
    let fraction := fractionLength (cs.drop whole)
    let exponent := exponentLength (cs.drop (whole + fraction))
    (if fraction + exponent = 0 then .int else .double, whole + fraction + exponent)

/-- Whether a number begins with `c` before `cs`: a digit, or a point before a digit. -/
def startsNumber (c : Char) (cs : List Char) : Bool :=
  c.isDigit || (c = '.' && (cs.head?.any Char.isDigit))

/-- The first kind of a fixed spelling that `cs` begins with, and the spelling's length. -/
def fixedKind? (cs : List Char) : Option (Kind × Nat) :=
  (Kind.spelled.find? fun entry => entry.2.isPrefixOf cs).map fun entry => (entry.1, entry.2.length)

/-- Reads what stands at the front of `c :: cs`: its kind, or `none` for a gap, and how many of the
    characters `cs` after the first belong to it. -/
def munch (c : Char) (cs : List Char) : Except LexicalError (Option Kind × Nat) :=
  if isBlank c then .ok (none, 0)
  else if c = '/' && cs.head? = some '/' then .ok (none, runLength (· ≠ '\n') cs)
  else if c = '/' && cs.head? = some '*' then
    match commentLength? (cs.drop 1) with
    | some n => .ok (none, n + 1)
    | none => .error .unterminatedComment
  else if startsNumber c cs then
    let (kind, n) := number (c :: cs)
    .ok (some (.literal kind), n - 1)
  else if startsName c then .ok (some .identifier, runLength continuesName cs)
  else if c = '"' then
    match textLength? cs with
    | some n => .ok (some (.literal .text), n)
    | none => .error .unterminatedText
  else
    match fixedKind? (c :: cs) with
    | some (kind, n) => .ok (some kind, n - 1)
    | none => .error (.unexpectedCharacter c)

/-- Cuts the characters from `pos` on into tokens; an error comes with the place where the gap or
    token that cannot be read begins. -/
def scan (pos : Position) : List Char → Except (LexicalError × Position) (List Token)
  | [] => .ok []
  | c :: cs =>
    match munch c cs with
    | .error e => .error (e, pos)
    | .ok (kind?, extra) =>
      let taken := c :: cs.take extra
      match scan (pos.after taken) (cs.drop extra) with
      | .error e => .error e
      | .ok rest =>
        match kind? with
        | none => .ok rest
        | some kind => .ok (⟨kind, String.ofList taken, pos⟩ :: rest)
termination_by cs => cs.length
decreasing_by simp only [List.length_drop, List.length_cons]; omega

/-- Cuts a source text into tokens (`Tokenize`). -/
def tokenize (source : String) : Except (LexicalError × Position) (List Token) :=
  scan Position.start source.toList

end ExprLang.Token
