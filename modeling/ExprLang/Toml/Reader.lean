import ExprLang.Parsed
import ExprLang.Toml.Quoted
import ExprLang.Toml.Scalar
import ExprLang.Toml.Table

/-!
# Reading TOML

A document is a list of lines: comments, headers that open a table, and names with their values.
Lists and inline tables may go over several lines.
-/

namespace ExprLang.Toml

/-- Whether a character is a blank of one line. -/
def isSpace (c : Char) : Bool := c = ' ' || c = '\t'

/-- Passes over blanks of one line. -/
def skipSpaces (cs : List Char) : List Char := cs.dropWhile isSpace

/-- Passes over blanks, line ends and comments. -/
def skipGaps : List Char → List Char
  | [] => []
  | c :: cs =>
    if isGap c then skipGaps cs
    else if c = '#' then skipGaps (cs.dropWhile fun d => !isLineEnd d)
    else c :: cs
termination_by cs => cs.length
decreasing_by
  · simp
  · simpa using Nat.lt_succ_of_le (List.dropWhile_sublist _).length_le

/-- Passing over blanks leaves no more than there was. -/
theorem length_skipSpaces (cs : List Char) : (skipSpaces cs).length ≤ cs.length :=
  (List.dropWhile_sublist isSpace).length_le

/-- Passing over gaps leaves no more than there was. -/
theorem length_skipGaps (cs : List Char) : (skipGaps cs).length ≤ cs.length := by
  fun_induction skipGaps cs with
  | case1 => simp
  | case2 c cs h ih => simp only [List.length_cons]; omega
  | case3 cs h ih =>
    have := (List.dropWhile_sublist (fun d => !isLineEnd d) (l := cs)).length_le
    simp only [List.length_cons]; omega
  | case4 => simp

/-- Characters of names without quotes. -/
def isNameChar (c : Char) : Bool := c.isAlphanum || c = '_' || c = '-'

/-- Reads one name of a key. -/
def readName (cs : List Char) : Option (Parsed String cs) :=
  match cs with
  | [] => none
  | c :: rest =>
    if c = '"' || c = '\'' then
      match oneLine? (c :: rest) with
      | some (name, n) =>
        some ⟨String.ofList name, rest.drop (n - 1), length_drop_lt c rest (n - 1)⟩
      | none => none
    else if isNameChar c then
      let more := rest.takeWhile isNameChar
      some ⟨String.ofList (c :: more), rest.drop more.length, length_drop_lt c rest more.length⟩
    else none

/-- Reads the names of a key, with points between them. -/
def readKey (cs : List Char) : Option (Parsed (List String × String) cs) := do
  let name ← readName cs
  have hn := name.shorter
  match hs : skipSpaces name.rest with
  | '.' :: others =>
    have hl : ('.' :: others).length ≤ name.rest.length := hs ▸ length_skipSpaces name.rest
    have ho := length_skipSpaces others
    have hm := Nat.lt_of_lt_of_le (Nat.lt_succ_of_le ho) (Nat.le_trans hl (Nat.le_of_lt hn))
    let more ← readKey (skipSpaces others)
    return ⟨(name.value :: more.value.1, more.value.2), more.rest,
      more.length_rest_lt (Nat.le_of_lt hm)⟩
  | others =>
    have hl : others.length ≤ name.rest.length := hs ▸ length_skipSpaces name.rest
    return ⟨([], name.value), others, Nat.lt_of_le_of_lt hl hn⟩
termination_by cs.length

/-- Whether a character ends a word. -/
def endsWord (c : Char) : Bool :=
  c = ',' || c = ']' || c = '\x7d' || c = '#' || isLineEnd c

/-- A list without the blanks at its end. -/
def trimRight (cs : List Char) : List Char := (cs.reverse.dropWhile isSpace).reverse

mutual

/-- Reads a value that begins with the first character. -/
def readValue (cs : List Char) : Option (Parsed Node cs) :=
  match cs with
  | [] => none
  | c :: rest =>
    if c = '[' then do
      have hg := length_skipGaps rest
      let items ← readItems (skipGaps rest)
      return ⟨.leaf (.list items.value), items.rest, items.length_rest_lt (Nat.le_succ_of_le hg)⟩
    else if c = '\x7b' then do
      have hg := length_skipGaps rest
      let entries ← readEntries [] (skipGaps rest)
      return ⟨.table false entries.value, entries.rest,
        entries.length_rest_lt (Nat.le_succ_of_le hg)⟩
    else if c = '"' || c = '\'' then
      match quotedText? (c :: rest) with
      | some (text, n) =>
        some ⟨.leaf (.text (String.ofList text)), rest.drop (n - 1), length_drop_lt c rest (n - 1)⟩
      | none => none
    else
      let more := rest.takeWhile fun d => !endsWord d
      match scalar? (trimRight (c :: more)) with
      | some data => some ⟨.leaf data, rest.drop more.length, length_drop_lt c rest more.length⟩
      | none => none
termination_by 2 * cs.length
decreasing_by all_goals simp only [List.length_cons] at *; omega

/-- Reads the items of a list up to and with its closing bracket. -/
def readItems (cs : List Char) : Option (Parsed (List HostData) cs) :=
  match cs with
  | [] => none
  | c :: rest =>
    if c = ']' then some ⟨[], rest, Nat.lt_succ_self _⟩
    else do
      let item ← readValue (c :: rest)
      have hi := item.shorter
      match hs : skipGaps item.rest with
      | [] => none
      | d :: others =>
        have hl : (d :: others).length ≤ item.rest.length := hs ▸ length_skipGaps item.rest
        have ho : others.length < (c :: rest).length := Nat.le_trans hl (Nat.le_of_lt hi)
        have hg := length_skipGaps others
        if d = ']' then return ⟨[item.value.toHostData], others, ho⟩
        else if d = ',' then
          let items ← readItems (skipGaps others)
          return ⟨item.value.toHostData :: items.value, items.rest,
            items.length_rest_lt (Nat.le_trans hg (Nat.le_of_lt ho))⟩
        else none
termination_by 2 * cs.length + 1
decreasing_by all_goals (try simp only [List.length_cons] at *); omega

/-- Reads the entries of an inline table up to and with its closing brace. -/
def readEntries (before : Entries) (cs : List Char) : Option (Parsed Entries cs) :=
  match cs with
  | [] => none
  | c :: rest =>
    if c = '\x7d' then some ⟨before, rest, Nat.lt_succ_self _⟩
    else do
      let key ← readKey (c :: rest)
      match he : key.rest with
      | '=' :: afterSign =>
        have hk : ('=' :: afterSign).length < (c :: rest).length := he ▸ key.shorter
        have hv := length_skipSpaces afterSign
        let item ← readValue (skipSpaces afterSign)
        have hi := item.length_rest_lt hv
        let entries ← before.assignDotted key.value.1 key.value.2 item.value
        match hs : skipGaps item.rest with
        | [] => none
        | d :: others =>
          have hl : (d :: others).length ≤ item.rest.length := hs ▸ length_skipGaps item.rest
          have ho : others.length < (c :: rest).length :=
            Nat.lt_trans (Nat.lt_trans hl hi) (Nat.lt_of_succ_lt hk)
          have hg := length_skipGaps others
          if d = '\x7d' then return ⟨entries, others, ho⟩
          else if d = ',' then
            let more ← readEntries entries (skipGaps others)
            return ⟨more.value, more.rest,
              more.length_rest_lt (Nat.le_trans hg (Nat.le_of_lt ho))⟩
          else none
      | _ => none
termination_by 2 * cs.length + 1
decreasing_by all_goals simp only [List.length_cons] at *; omega

end

/-- What is left after the end of a line, with a comment before it or without. -/
def endLine? (cs : List Char) : Option (List Char) :=
  match skipSpaces cs with
  | [] => some []
  | c :: rest =>
    if c = '#' then some (rest.dropWhile fun d => !isLineEnd d)
    else if isLineEnd c then some (c :: rest)
    else none

/-- The end of a line is not longer than what it was found in. -/
theorem length_endLine? {cs rest : List Char} (h : endLine? cs = some rest) :
    rest.length ≤ cs.length := by
  have hl := length_skipSpaces cs
  unfold endLine? at h
  split at h
  · cases h; simp
  · rename_i c others hs
    rw [hs] at hl
    simp at hl
    split at h
    · cases h
      have := (List.dropWhile_sublist (fun d => !isLineEnd d) (l := others)).length_le
      omega
    · split at h
      · cases h; simpa using hl
      · cases h

/-- A document that is being read: all its tables, and the path of the open one. -/
structure Draft where
  entries : Entries := []
  path : List String := []

/-- Opens the table of a header. -/
def Draft.header (draft : Draft) (key : List String × String)
    (opening : String → Entries → Option Entries) : Option Draft := do
  let entries ← Entries.update id (opening key.2) key.1 draft.entries
  return ⟨entries, key.1 ++ [key.2]⟩

/-- Gives a name in the open table its value. -/
def Draft.assign (draft : Draft) (key : List String × String) (value : Node) : Option Draft := do
  let entries ← Entries.update id (Entries.assignDotted key.1 key.2 value) draft.path draft.entries
  return { draft with entries }

/-- Reads a header after its opening bracket. -/
def readHeader (draft : Draft) (cs : List Char) : Option (Parsed Draft cs) :=
  match cs with
  | '[' :: rest => do
    have hs := length_skipSpaces rest
    let key ← readKey (skipSpaces rest)
    have hk := key.shorter
    match he : key.rest with
    | ']' :: ']' :: others =>
      let next ← draft.header key.value Entries.openNext
      return ⟨next, others, by simp only [he, List.length_cons] at *; omega⟩
    | _ => none
  | cs => do
    have hs := length_skipSpaces cs
    let key ← readKey (skipSpaces cs)
    have hk := key.shorter
    match he : key.rest with
    | ']' :: others =>
      let next ← draft.header key.value Entries.openTable
      return ⟨next, others, by simp only [he, List.length_cons] at *; omega⟩
    | _ => none

/-- Reads a name and its value. -/
def readAssignment (draft : Draft) (cs : List Char) : Option (Parsed Draft cs) := do
  let key ← readKey cs
  have hk := key.shorter
  match he : key.rest with
  | '=' :: afterSign =>
    have hv := length_skipSpaces afterSign
    let item ← readValue (skipSpaces afterSign)
    have hi := item.shorter
    let next ← draft.assign key.value item.value
    return ⟨next, item.rest, by simp only [he, List.length_cons] at *; omega⟩
  | _ => none

/-- Reads the lines of a document. -/
def readLines (draft : Draft) (cs : List Char) : Option Entries :=
  match hs : skipGaps cs with
  | [] => some draft.entries
  | c :: rest =>
    have _hl := hs ▸ length_skipGaps cs
    if c = '[' then
      match readHeader draft rest with
      | none => none
      | some header =>
        match he : endLine? header.rest with
        | none => none
        | some others =>
          have _hh := header.shorter
          have _ho := length_endLine? he
          readLines header.value others
    else
      match readAssignment draft (c :: rest) with
      | none => none
      | some assignment =>
        match he : endLine? assignment.rest with
        | none => none
        | some others =>
          have _hh := assignment.shorter
          have _ho := length_endLine? he
          readLines assignment.value others
termination_by cs.length
decreasing_by all_goals simp only [List.length_cons] at *; omega

/-- Whether a document has no control characters; line ends are a line feed with or without a
    carriage return before it. -/
def isPlain : List Char → Bool
  | [] => true
  | '\r' :: '\n' :: rest => isPlain rest
  | c :: rest => (c = '\t' || c = '\n' || (0x20 ≤ c.toNat && c.toNat ≠ 0x7F)) && isPlain rest

/-- A document without the mark that some writers put in front. -/
def withoutMark : List Char → List Char
  | c :: rest => if c.toNat = 0xFEFF then rest else c :: rest
  | [] => []

/-- The names of a TOML document with their data. -/
def read? (document : List UInt8) : Option (List (Text × HostData)) := do
  let text ← Text.toString? ⟨document⟩
  let cs := withoutMark text.toList
  if isPlain cs then
    let entries ← readLines {} cs
    return entryData entries
  else none

end ExprLang.Toml
