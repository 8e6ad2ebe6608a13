import ExprLang.HostData
import ExprLang.Parsed
import ExprLang.Text.Escape

/-!
# Reading JSON

The first value of a document is read, and what follows it is not looked at. Numbers stay as they
are written. Of members with the same key the last one counts.
-/

namespace ExprLang.Json

/-- Blanks between the parts of a document. -/
def isBlank (c : Char) : Bool := c = ' ' || c = '\t' || c = '\r' || c = '\n'

/-- Passes over blanks. -/
def skipBlanks (cs : List Char) : List Char := cs.dropWhile isBlank

/-- The number written by the first four characters, if they are hexadecimal digits. -/
def hex4? (cs : List Char) : Option Nat :=
  if cs.length < 4 then none
  else Number.digitsValue? 16 Number.hexadecimalDigit? 0 (cs.take 4)

/-- Whether a code is the first half of a pair. -/
def isHighHalf (n : Nat) : Bool := 0xD800 ≤ n && n ≤ 0xDBFF

/-- Whether a code is the second half of a pair. -/
def isLowHalf (n : Nat) : Bool := 0xDC00 ≤ n && n ≤ 0xDFFF

/-- The second half of a pair of code escapes, at the front of `cs`. -/
def lowHalf? : List Char → Option Nat
  | '\\' :: 'u' :: cs =>
    match hex4? cs with
    | some n => if isLowHalf n then some n else none
    | none => none
  | _ => none

/-- Reads the escape that follows a backslash: the character it stands for and how many characters
    it takes. A half without its other half stands for the replacement character. -/
def escape? : List Char → Option (Char × Nat)
  | '"' :: _ => some ('"', 1)
  | '\\' :: _ => some ('\\', 1)
  | '/' :: _ => some ('/', 1)
  | 'b' :: _ => some ('\x08', 1)
  | 'f' :: _ => some ('\x0c', 1)
  | 'n' :: _ => some ('\n', 1)
  | 'r' :: _ => some ('\r', 1)
  | 't' :: _ => some ('\t', 1)
  | 'u' :: cs =>
    match hex4? cs with
    | none => none
    | some n =>
      if isHighHalf n then
        match lowHalf? (cs.drop 4) with
        | some low => some (Text.charOfCode (0x10000 + (n - 0xD800) * 0x400 + (low - 0xDC00)), 11)
        | none => some (Text.charOfCode n, 5)
      else some (Text.charOfCode n, 5)
  | _ => none

/-- Reads a text after its opening quote: its characters and how many characters it takes, with the
    closing quote. -/
def textBody? : List Char → Option (List Char × Nat)
  | [] => none
  | c :: cs =>
    if c = '"' then some ([], 1)
    else if c = '\\' then
      match escape? cs with
      | none => none
      | some (meant, taken) =>
        match textBody? (cs.drop taken) with
        | some (rest, n) => some (meant :: rest, n + taken + 1)
        | none => none
    else
      match textBody? cs with
      | some (rest, n) => some (c :: rest, n + 1)
      | none => none
termination_by cs => cs.length
decreasing_by all_goals simp only [List.length_drop, List.length_cons]; omega

/-- Characters of numbers. -/
def isNumberChar (c : Char) : Bool :=
  c.isDigit || c = '.' || c = 'e' || c = 'E' || c = '+' || c = '-'

/-- Whether a written number can be read and is not too large for a double. -/
def isNumber (cs : List Char) : Bool :=
  match Number.reading? cs with
  | some reading => (Double.ofReading reading).isFinite
  | none => false

/-- Passing over blanks leaves no more than there was. -/
theorem length_skipBlanks (cs : List Char) : (skipBlanks cs).length ≤ cs.length :=
  (List.dropWhile_sublist isBlank).length_le

mutual

/-- Reads a value that begins with the first character. -/
def readValue (cs : List Char) : Option (Parsed HostData cs) :=
  match cs with
  | [] => none
  | c :: rest =>
    if c = '\x7b' then
      match hs : skipBlanks rest with
      | [] => none
      | d :: others =>
        have hl : (d :: others).length ≤ rest.length := hs ▸ length_skipBlanks rest
        if d = '\x7d' then some ⟨.map [], others, Nat.lt_succ_of_lt hl⟩
        else do
          let entries ← readEntries (d :: others)
          return ⟨.map (lastOfEach (· = ·) entries.value), entries.rest,
            entries.length_rest_lt (Nat.le_succ_of_le hl)⟩
    else if c = '[' then
      match hs : skipBlanks rest with
      | [] => none
      | d :: others =>
        have hl : (d :: others).length ≤ rest.length := hs ▸ length_skipBlanks rest
        if d = ']' then some ⟨.list [], others, Nat.lt_succ_of_lt hl⟩
        else do
          let items ← readItems (d :: others)
          return ⟨.list items.value, items.rest, items.length_rest_lt (Nat.le_succ_of_le hl)⟩
    else if c = '"' then
      match textBody? rest with
      | some (text, n) =>
        some ⟨.text (String.ofList text), rest.drop n, length_drop_lt c rest n⟩
      | none => none
    else if c = '-' || c.isDigit then
      let more := rest.takeWhile isNumberChar
      if isNumber (c :: more) then
        some ⟨.number (String.ofList (c :: more)), rest.drop more.length,
          length_drop_lt c rest more.length⟩
      else none
    else if c = 't' ∧ rest.take 3 = ['r', 'u', 'e'] then
      some ⟨.bool true, rest.drop 3, length_drop_lt c rest 3⟩
    else if c = 'f' ∧ rest.take 4 = ['a', 'l', 's', 'e'] then
      some ⟨.bool false, rest.drop 4, length_drop_lt c rest 4⟩
    else if c = 'n' ∧ rest.take 3 = ['u', 'l', 'l'] then
      some ⟨.unsupported "<nil>", rest.drop 3, length_drop_lt c rest 3⟩
    else none
termination_by 2 * cs.length
decreasing_by all_goals simp only [List.length_cons] at *; omega

/-- Reads the items of a list up to and with its closing bracket; the first one begins with the
    first character. -/
def readItems (cs : List Char) : Option (Parsed (List HostData) cs) := do
  let item ← readValue cs
  match hs : skipBlanks item.rest with
  | [] => none
  | c :: others =>
    have hl : (c :: others).length ≤ item.rest.length := hs ▸ length_skipBlanks item.rest
    have ho : others.length < cs.length := Nat.le_trans hl (Nat.le_of_lt item.shorter)
    if c = ']' then return ⟨[item.value], others, ho⟩
    else if c = ',' then
      have hk := length_skipBlanks others
      let items ← readItems (skipBlanks others)
      return ⟨item.value :: items.value, items.rest,
        items.length_rest_lt (Nat.le_trans hk (Nat.le_of_lt ho))⟩
    else none
termination_by 2 * cs.length + 1
decreasing_by all_goals (try simp only [List.length_cons] at *); omega

/-- Reads the members of a map up to and with its closing brace; the first key begins with the first
    character. -/
def readEntries (cs : List Char) : Option (Parsed (List (Text × HostData)) cs) :=
  match cs with
  | [] => none
  | q :: rest =>
    if q = '"' then
      match textBody? rest with
      | none => none
      | some (key, n) =>
        match hc : skipBlanks (rest.drop n) with
        | [] => none
        | colon :: afterColon =>
          have hl : (colon :: afterColon).length ≤ (rest.drop n).length :=
            hc ▸ length_skipBlanks (rest.drop n)
          have ha := Nat.lt_trans hl (length_drop_lt q rest n)
          if colon = ':' then do
            have hk := length_skipBlanks afterColon
            let item ← readValue (skipBlanks afterColon)
            match hs : skipBlanks item.rest with
            | [] => none
            | c :: others =>
              have hm : (c :: others).length ≤ item.rest.length :=
                hs ▸ length_skipBlanks item.rest
              have ho : others.length < (q :: rest).length :=
                Nat.lt_trans (Nat.lt_trans hm (item.length_rest_lt hk)) ha
              if c = '\x7d' then return ⟨[(String.ofList key, item.value)], others, ho⟩
              else if c = ',' then
                have hb := length_skipBlanks others
                let entries ← readEntries (skipBlanks others)
                return ⟨(String.ofList key, item.value) :: entries.value, entries.rest,
                  entries.length_rest_lt (Nat.le_trans hb (Nat.le_of_lt ho))⟩
              else none
          else none
    else none
termination_by 2 * cs.length + 1
decreasing_by all_goals simp only [List.length_drop, List.length_cons] at *; omega

end

/-- The data of a JSON document (`decodeJSONRaw`). -/
def read? (document : String) : Option HostData :=
  (readValue (skipBlanks document.toList)).map Parsed.value

/-- The value of a JSON document (`DecodeJSON`). -/
def decode (document : String) : Build Value :=
  match read? document with
  | some d => d.toValue
  | none => Build.fail .invalidJson

end ExprLang.Json
