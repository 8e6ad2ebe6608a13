import ExprLang.Number.Digits

/-!
# Escapes in text literals

A text literal stands between double quotes. Inside, a backslash opens an escape: a short form, a
code point in hexadecimal, or a line continuation that stands for nothing.
-/

namespace ExprLang.Text

/-- The character with code `n`; a surrogate code stands for the replacement character. -/
def charOfCode (n : Nat) : Char :=
  if 0xD800 ≤ n ∧ n ≤ 0xDFFF then '�' else Char.ofNat n

/-- The largest code point. -/
def maxCode : Nat := 0x10FFFF

/-- The character whose code is written by the first `width` characters of `cs`. -/
def codeEscape? (width : Nat) (cs : List Char) : Option Char :=
  if cs.length < width then none
  else
    match Number.digitsValue? 16 Number.hexadecimalDigit? 0 (cs.take width) with
    | some n => if n ≤ maxCode then some (charOfCode n) else none
    | none => none

/-- Reads the escape that follows a backslash: the characters it stands for, and how many characters
    it takes. -/
def escape? : List Char → Option (List Char × Nat)
  | '\r' :: '\n' :: _ => some ([], 2)
  | '\r' :: _ => some ([], 1)
  | '\n' :: _ => some ([], 1)
  | '\\' :: _ => some (['\\'], 1)
  | '"' :: _ => some (['"'], 1)
  | 't' :: _ => some (['\t'], 1)
  | 'r' :: _ => some (['\r'], 1)
  | 'n' :: _ => some (['\n'], 1)
  | 'x' :: cs => (codeEscape? 2 cs).map fun c => ([c], 3)
  | 'u' :: cs => (codeEscape? 4 cs).map fun c => ([c], 5)
  | 'U' :: cs => (codeEscape? 8 cs).map fun c => ([c], 9)
  | _ => none

/-- Resolves the escapes of a literal's body. `offset` is the number of bytes before the body's
    first character; a backslash that opens no escape is refused with its own offset. -/
def decodeBody (offset : Nat) : List Char → Except Nat (List Char)
  | [] => .ok []
  | c :: cs =>
    if c = '\\' then
      match escape? cs with
      | none => .error offset
      | some (meant, taken) =>
        match decodeBody (offset + 1 + taken) (cs.drop taken) with
        | .ok rest => .ok (meant ++ rest)
        | .error e => .error e
    else
      match decodeBody (offset + c.utf8Size) cs with
      | .ok rest => .ok (c :: rest)
      | .error e => .error e
termination_by cs => cs.length
decreasing_by all_goals simp only [List.length_drop, List.length_cons]; omega

/-- Takes off one pair of surrounding quotes, if there is one. -/
def unquote : List Char → List Char
  | '"' :: cs => if cs.getLast? = some '"' then cs.dropLast else '"' :: cs
  | cs => cs

/-- The text that a literal stands for, or the byte offset, counted inside the quotes, of the first
    backslash that opens no escape (`DecodeText`). -/
def decode (lexeme : String) : Except Nat String :=
  match decodeBody 0 (unquote lexeme.toList) with
  | .ok cs => .ok (String.ofList cs)
  | .error offset => .error offset

/-- How a character is written inside a literal. -/
def quoteChar (c : Char) : List Char :=
  if c = '\\' then ['\\', '\\']
  else if c = '"' then ['\\', '"']
  else if c = '\r' then ['\\', 'r']
  else if c = '\n' then ['\\', 'n']
  else if c = '\t' then ['\\', 't']
  else [c]

/-- The literal that stands for `s` (`encodeText`). -/
def quote (s : String) : String :=
  String.ofList ('"' :: s.toList.flatMap quoteChar ++ ['"'])

end ExprLang.Text
