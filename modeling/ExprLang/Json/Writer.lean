import ExprLang.Data
import ExprLang.Text.Quoted

/-!
# Writing JSON

No blanks, members in their own order. Besides quotes, backslashes and control characters, the
characters `<`, `>`, `&` and the line separators U+2028 and U+2029 are escaped. A byte that begins
no character is written as the escape of the replacement character.
-/

namespace ExprLang.Json

/-- How a character is written in a JSON text. -/
def escapedChar (c : Char) : List Char :=
  if c = '"' then ['\\', '"']
  else if c = '\\' then ['\\', '\\']
  else if c = '\n' then ['\\', 'n']
  else if c = '\r' then ['\\', 'r']
  else if c = '\t' then ['\\', 't']
  else if c.toNat < 0x20 ∨ c = '<' ∨ c = '>' ∨ c = '&' ∨ c.toNat = 0x2028 ∨ c.toNat = 0x2029 then
    '\\' :: 'u' :: Text.hexPadded 4 c.toNat
  else [c]

/-- How what a text is read as is written in a JSON text. -/
def escaped : Option Char → List Char
  | some c => escapedChar c
  | none => '\\' :: 'u' :: Text.hexPadded 4 Text.replacement.toNat

/-- A text between quotes (`writeJSON`). -/
def writeText (t : Text) : List Char :=
  '"' :: t.chars.flatMap escaped ++ ['"']

/-- How doubles are written: plainly from `1e-6` up to below `1e21`, whole numbers without a point.
    -/
def numberLayout : Number.Layout := ⟨-6, 21, false⟩

/-- A double; what is not finite is written as a text (`writeJSON`). -/
def writeDouble (x : Double) : List Char :=
  if x.isFinite then (x.write numberLayout).toList else writeText x.toText

/-- Written items with commas between them. -/
def separated : List (List Char) → List Char
  | [] => []
  | [item] => item
  | item :: items => item ++ ',' :: separated items

/-- The document of a value (`encodeJSON`). `path` holds the containers that it is a part of, and
    `budget` bounds their number. -/
def encodeWithin (s : Store) : Nat → List Value → Value → Except Cause (List Char)
  | _, _, .int n => .ok (toString n.toInt).toList
  | _, _, .double x => .ok (writeDouble x)
  | _, _, .text t => .ok (writeText t)
  | _, _, .function id => .error (.notEncodable (Value.function id).kind)
  | _, _, .scope id => .error (.notEncodable (Value.scope id).kind)
  | 0, _, .array id => .error (.selfReferential (Value.array id).kind)
  | 0, _, .object id => .error (.selfReferential (Value.object id).kind)
  | budget + 1, path, .array id =>
    if path.contains (.array id) then .error (.selfReferential (Value.array id).kind)
    else
      (Store.collect (encodeWithin s budget (.array id :: path)) (s.elements id).toList).map
        fun items => '[' :: separated items ++ [']']
  | budget + 1, path, .object id =>
    if path.contains (.object id) then .error (.selfReferential (Value.object id).kind)
    else
      (Store.collect
        (fun entry => (encodeWithin s budget (.object id :: path) entry.2).map
          fun document => writeText entry.1 ++ ':' :: document)
        (s.members id).entries).map
        fun members => '\x7b' :: separated members ++ ['\x7d']

/-- The JSON document of a value (`EncodeJSON`). -/
def encode (s : Store) (v : Value) : Except Cause String :=
  (encodeWithin s (s.containers + 1) [] v).map String.ofList

end ExprLang.Json
