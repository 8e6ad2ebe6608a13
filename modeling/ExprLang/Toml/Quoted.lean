import ExprLang.Number.Digits

/-!
# TOML texts

Texts between double quotes have escapes, texts between single quotes have none. Between three
quotes of either kind a text may go over several lines; a line end right after the opening is not a
part of it. Each reader gives the characters and how many characters it took.
-/

namespace ExprLang.Toml

/-- The character of a hexadecimal code of a given width. -/
def codeChar? (width : Nat) (cs : List Char) : Option Char :=
  if cs.length < width then none
  else
    match Number.digitsValue? 16 Number.hexadecimalDigit? 0 (cs.take width) with
    | some n => if n.isValidChar then some (Char.ofNat n) else none
    | none => none

/-- Reads the escape that follows a backslash. -/
def escape? : List Char → Option (Char × Nat)
  | 'b' :: _ => some ('\x08', 1)
  | 't' :: _ => some ('\t', 1)
  | 'n' :: _ => some ('\n', 1)
  | 'f' :: _ => some ('\x0c', 1)
  | 'r' :: _ => some ('\r', 1)
  | 'e' :: _ => some ('\x1b', 1)
  | '"' :: _ => some ('"', 1)
  | '\\' :: _ => some ('\\', 1)
  | 'x' :: cs => (codeChar? 2 cs).map fun c => (c, 3)
  | 'u' :: cs => (codeChar? 4 cs).map fun c => (c, 5)
  | 'U' :: cs => (codeChar? 8 cs).map fun c => (c, 9)
  | _ => none

/-- Whether a character ends a line. -/
def isLineEnd (c : Char) : Bool := c = '\n' || c = '\r'

/-- Whether a character is a blank or ends a line. -/
def isGap (c : Char) : Bool := c = ' ' || c = '\t' || isLineEnd c

/-- A text of one line, after its opening quote. -/
def basicText? : List Char → Option (List Char × Nat)
  | [] => none
  | c :: cs =>
    if c = '"' then some ([], 1)
    else if isLineEnd c then none
    else if c = '\\' then
      match escape? cs with
      | none => none
      | some (meant, taken) =>
        match basicText? (cs.drop taken) with
        | some (rest, n) => some (meant :: rest, n + taken + 1)
        | none => none
    else
      match basicText? cs with
      | some (rest, n) => some (c :: rest, n + 1)
      | none => none
termination_by cs => cs.length
decreasing_by all_goals simp only [List.length_drop, List.length_cons]; omega

/-- A text of one line without escapes, after its opening quote. -/
def literalText? : List Char → Option (List Char × Nat)
  | [] => none
  | c :: cs =>
    if c = '\'' then some ([], 1)
    else if isLineEnd c then none
    else
      match literalText? cs with
      | some (rest, n) => some (c :: rest, n + 1)
      | none => none

/-- What a run of quotes is in a text between three quotes: up to two quotes of its own before the
    closing ones. A shorter run is not the end of the text. -/
def closing? (quote : Char) (run : Nat) : Option (List Char × Nat) :=
  if run ≤ 5 then some (List.replicate (run - 3) quote, run) else none

/-- A text of several lines, after its opening quotes. A backslash at the end of a line takes all
    blanks and line ends that follow with it. -/
def basicLines? : List Char → Option (List Char × Nat)
  | [] => none
  | c :: cs =>
    let run := ((c :: cs).takeWhile (· = '"')).length
    if 3 ≤ run then closing? '"' run
    else if c = '\\' then
      let gap := cs.takeWhile isGap
      if gap.contains '\n' then
        match basicLines? (cs.drop gap.length) with
        | some (rest, n) => some (rest, n + gap.length + 1)
        | none => none
      else
        match escape? cs with
        | none => none
        | some (meant, taken) =>
          match basicLines? (cs.drop taken) with
          | some (rest, n) => some (meant :: rest, n + taken + 1)
          | none => none
    else
      match basicLines? cs with
      | some (rest, n) => some (c :: rest, n + 1)
      | none => none
termination_by cs => cs.length
decreasing_by all_goals simp only [List.length_drop, List.length_cons]; omega

/-- A text of several lines without escapes, after its opening quotes. -/
def literalLines? : List Char → Option (List Char × Nat)
  | [] => none
  | c :: cs =>
    let run := ((c :: cs).takeWhile (· = '\'')).length
    if 3 ≤ run then closing? '\'' run
    else
      match literalLines? cs with
      | some (rest, n) => some (c :: rest, n + 1)
      | none => none

/-- The length of a line end at the front. -/
def leadingLineEnd : List Char → Nat
  | '\n' :: _ => 1
  | '\r' :: '\n' :: _ => 2
  | _ => 0

/-- Reads a text between three quotes, without the line end right after the opening. -/
def afterLineEnd (read : List Char → Option (List Char × Nat)) (cs : List Char) :
    Option (List Char × Nat) :=
  let skipped := leadingLineEnd cs
  (read (cs.drop skipped)).map fun (text, n) => (text, n + skipped)

/-- Reads a text of one line; the first character is its opening quote. -/
def oneLine? : List Char → Option (List Char × Nat)
  | '"' :: cs => (basicText? cs).map fun (text, n) => (text, n + 1)
  | '\'' :: cs => (literalText? cs).map fun (text, n) => (text, n + 1)
  | _ => none

/-- Reads a text of one line or of several. -/
def quotedText? : List Char → Option (List Char × Nat)
  | '"' :: '"' :: '"' :: cs => (afterLineEnd basicLines? cs).map fun (text, n) => (text, n + 3)
  | '\'' :: '\'' :: '\'' :: cs =>
    (afterLineEnd literalLines? cs).map fun (text, n) => (text, n + 3)
  | cs => oneLine? cs

end ExprLang.Toml
