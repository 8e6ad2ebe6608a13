import ExprLang.HostData
import ExprLang.Parsed
import ExprLang.Text.DateTime

/-!
# Reading CBOR

A document is one item with nothing after it. Containers may nest, and tags follow one another, up
to a limit. Some tags say what their content stands for; the others, and the simple values, have no
form in the language but are still read.
-/

namespace ExprLang.Cbor

/-- An item of a document. -/
inductive Item where
  | int (n : Int)
  /-- A whole number that needs more than a word. -/
  | bignum (n : Int)
  | bytes (bs : List UInt8)
  | text (s : String)
  | list (items : List Item)
  | map (entries : List (Item × Item))
  | bool (b : Bool)
  | null
  | simple
  | double (x : Double)
  | time
  | tagged (content : Item)

/-- The most levels of containers and tags. -/
def maxLevels : Nat := 32

/-- The most items of a list, or members of a map. -/
def maxItems : Nat := 131072

/-- The number written by bytes, most significant first. -/
def bigEndianValue (bs : List UInt8) : Nat :=
  bs.foldl (fun n b => 256 * n + b.toNat) 0

/-- The head of an item: the major type, the additional information and the argument. -/
structure Head where
  major : Nat
  info : Nat
  argument : Nat

/-- The argument of a head in the next `count` bytes. -/
def argument? (major info count : Nat) (b : UInt8) (bs : List UInt8) :
    Option (Parsed Head (b :: bs)) :=
  if bs.length < count then none
  else some ⟨⟨major, info, bigEndianValue (bs.take count)⟩, bs.drop count, by
    simp only [List.length_drop, List.length_cons]; omega⟩

/-- Reads the head of an item. Where the length is left open the argument is zero. -/
def readHead (input : List UInt8) : Option (Parsed Head input) :=
  match input with
  | [] => none
  | b :: bs =>
    let major := b.toNat / 32
    let info := b.toNat % 32
    if info < 24 then some ⟨⟨major, info, info⟩, bs, by simp⟩
    else if info = 24 then do
      let h ← argument? major info 1 b bs
      if major = 7 ∧ h.value.argument < 32 then none else return h
    else if info = 25 then argument? major info 2 b bs
    else if info = 26 then argument? major info 4 b bs
    else if info = 27 then argument? major info 8 b bs
    else if info = 31 ∧ 2 ≤ major ∧ major ≤ 5 then some ⟨⟨major, info, 0⟩, bs, by simp⟩
    else none

/-- The chunks of a string of open length, up to and with the closing byte; each is of the string's
    own major type and of a given length. -/
def readChunks (major : Nat) (input : List UInt8) :
    Option (Continued (List (List UInt8)) input) :=
  match input with
  | [] => none
  | b :: bs =>
    if b = 0xFF then some ⟨[], bs, by simp⟩
    else do
      let h ← readHead (b :: bs)
      if h.value.major ≠ major ∨ h.value.info = 31 ∨ h.rest.length < h.value.argument then none
      else
        have hs := h.shorter
        let chunks ← readChunks major (h.rest.drop h.value.argument)
        return ⟨h.rest.take h.value.argument :: chunks.value, chunks.rest, by
          have := chunks.noLonger; simp only [List.length_drop, List.length_cons] at *; omega⟩
termination_by input.length
decreasing_by simp only [List.length_drop, List.length_cons] at *; omega

/-- The chunks of a string after its head. -/
def readString (h : Head) (input : List UInt8) : Option (Continued (List (List UInt8)) input) :=
  if h.info = 31 then readChunks h.major input
  else if input.length < h.argument then none
  else some ⟨[input.take h.argument], input.drop h.argument, by simp [List.length_drop]⟩

/-- The text of some chunks, each of which is a text. -/
def textOfChunks? : List (List UInt8) → Option String
  | [] => some ""
  | chunk :: chunks => do
    let s ← Text.toString? ⟨chunk⟩
    let rest ← textOfChunks? chunks
    return s ++ rest

open Number in
/-- The double of a pattern in a format. -/
def doubleOf (f : Format) (pattern : Nat) : Double :=
  if f.infinity < pattern % f.signBit then Double.nan
  else
    Double.ofMagnitude (decide (f.signBit ≤ pattern))
      (Format.convert f Format.double (pattern % f.signBit))

/-- Numbers without an own major type, and simple values. -/
def simpleItem (h : Head) : Item :=
  if h.info = 25 then .double (doubleOf Number.Format.half h.argument)
  else if h.info = 26 then .double (doubleOf Number.Format.single h.argument)
  else if h.info = 27 then .double (doubleOf Number.Format.double h.argument)
  else if h.argument = 20 then .bool false
  else if h.argument = 21 then .bool true
  else if h.argument = 22 ∨ h.argument = 23 then .null
  else .simple

/-- A whole number below zero. -/
def negativeItem (argument : Nat) : Item :=
  if argument < 0x8000000000000000 then .int (-1 - (argument : Int))
  else .bignum (-1 - (argument : Int))

/-- Consecutive items in pairs; their number has to be even. -/
def inPairs : List Item → Option (List (Item × Item))
  | [] => some []
  | [_] => none
  | k :: v :: rest => (inPairs rest).map ((k, v) :: ·)

/-- Whether an item can be a key. -/
def Item.isKey : Item → Bool
  | .list _ | .map _ | .bignum _ => false
  | .tagged content => content.isKey
  | _ => true

/-- Whether two items are the same key. -/
def Item.sameKey : Item → Item → Bool
  | .int m, .int n => m = n
  | .double x, .double y => x.equals y
  | .text a, .text b => a = b
  | .bool a, .bool b => a = b
  | .null, .null => true
  | _, _ => false

/-- The map of some entries, if all their keys can be keys. -/
def mapItem? (items : List Item) : Option Item := do
  let entries ← inPairs items
  if items.length ≤ 2 * maxItems ∧ entries.all (fun entry => entry.1.isKey) then
    some (.map (lastOfEach Item.sameKey entries))
  else none

/-- What a tag makes of its content: numbers 0 and 1 are times, 2 and 3 whole numbers in bytes. -/
def tagItem? (number : Nat) (content : Item) : Option Item :=
  if number = 0 then
    match content with
    | .text s => if Text.isDateTime s then some .time else none
    | _ => none
  else if number = 1 then
    match content with
    | .int n => if n < 0x8000000000000000 then some .time else none
    | .double _ => some .time
    | _ => none
  else if number = 2 then
    match content with
    | .bytes bs => some (.bignum (bigEndianValue bs))
    | _ => none
  else if number = 3 then
    match content with
    | .bytes bs => some (.bignum (-1 - (bigEndianValue bs : Int)))
    | _ => none
  else some (.tagged content)

/-- The number of the tag that marks a document as CBOR. -/
def documentMark : Nat := 55799

/-- What comes right before an item. -/
inductive Before where
  | start
  | mark
  | tag
  deriving DecidableEq

/-- What a tag is to its content: marks are known as such unless they follow another tag. -/
def Before.next (before : Before) (number : Nat) : Before :=
  if number = documentMark ∧ before ≠ .tag then .mark else .tag

mutual

/-- Reads an item; `levels` more levels may follow. Tags that follow a tag take up a level each.
    Marks are passed over. -/
def readItem (levels : Nat) (before : Before) (input : List UInt8) :
    Option (Parsed Item input) := do
  let h ← readHead input
  have hs := h.shorter
  match h.value.major with
  | 0 => return ⟨.int h.value.argument, h.rest, hs⟩
  | 1 => return ⟨negativeItem h.value.argument, h.rest, hs⟩
  | 2 =>
    let chunks ← readString h.value h.rest
    return ⟨.bytes chunks.value.flatten, chunks.rest, Nat.lt_of_le_of_lt chunks.noLonger hs⟩
  | 3 =>
    let chunks ← readString h.value h.rest
    let s ← textOfChunks? chunks.value
    return ⟨.text s, chunks.rest, Nat.lt_of_le_of_lt chunks.noLonger hs⟩
  | 4 =>
    if levels = 0 then none
    else
      let items ←
        if h.value.info = 31 then readUntilBreak (levels - 1) h.rest
        else if maxItems < h.value.argument then none
        else readCount (levels - 1) h.value.argument h.rest
      if maxItems < items.value.length then none
      else return ⟨.list items.value, items.rest, Nat.lt_of_le_of_lt items.noLonger hs⟩
  | 5 =>
    if levels = 0 then none
    else
      let items ←
        if h.value.info = 31 then readUntilBreak (levels - 1) h.rest
        else if maxItems < h.value.argument then none
        else readCount (levels - 1) (2 * h.value.argument) h.rest
      let m ← mapItem? items.value
      return ⟨m, items.rest, Nat.lt_of_le_of_lt items.noLonger hs⟩
  | 6 =>
    if before ≠ .start ∧ levels = 0 then none
    else
      let within := before.next h.value.argument
      let content ← readItem (if before = .start then levels else levels - 1) within h.rest
      let item ←
        if within = .mark then some content.value else tagItem? h.value.argument content.value
      return ⟨item, content.rest, Nat.lt_trans content.shorter hs⟩
  | _ => return ⟨simpleItem h.value, h.rest, hs⟩
termination_by 2 * input.length
decreasing_by all_goals omega

/-- Reads a number of items. -/
def readCount (levels count : Nat) (input : List UInt8) : Option (Continued (List Item) input) :=
  match count with
  | 0 => some ⟨[], input, Nat.le_refl _⟩
  | count + 1 => do
    let item ← readItem levels .start input
    have hs := item.shorter
    let items ← readCount levels count item.rest
    return ⟨item.value :: items.value, items.rest,
      Nat.le_of_lt (Nat.lt_of_le_of_lt items.noLonger hs)⟩
termination_by 2 * input.length + 1
decreasing_by all_goals omega

/-- Reads items up to and with the closing byte. -/
def readUntilBreak (levels : Nat) (input : List UInt8) : Option (Continued (List Item) input) :=
  match input with
  | [] => none
  | b :: bs =>
    if b = 0xFF then some ⟨[], bs, by simp⟩
    else do
      let item ← readItem levels .start (b :: bs)
      have hs := item.shorter
      let items ← readUntilBreak levels item.rest
      return ⟨item.value :: items.value, items.rest,
        Nat.le_of_lt (Nat.lt_of_le_of_lt items.noLonger hs)⟩
termination_by 2 * input.length + 1
decreasing_by all_goals omega

end

mutual

/-- The data of an item. Whole numbers that are not negative come as unsigned ones. -/
def Item.toHostData : Item → HostData
  | .int n => if n < 0 then .int (Int64.ofInt n) else .unsigned (UInt64.ofNat n.toNat)
  | .bignum n => .big n
  | .bytes bs => .text ⟨bs⟩
  | .text s => .text s
  | .list items => .list (listData items)
  | .map entries => .keyedMap (entryData entries)
  | .bool b => .bool b
  | .null => .unsupported "<nil>"
  | .simple => .unsupported "cbor.SimpleValue"
  | .double x => .double x
  | .time => .unsupported "time.Time"
  | .tagged _ => .unsupported "cbor.Tag"

/-- The data of a key: keys of bytes have no form in the language. -/
def Item.keyData : Item → HostData
  | .bytes _ => .unsupported "cbor.ByteString"
  | item => item.toHostData

/-- The data of a list's items. -/
def listData : List Item → List HostData
  | [] => []
  | item :: items => item.toHostData :: listData items

/-- The data of a map's entries. -/
def entryData : List (Item × Item) → List (HostData × HostData)
  | [] => []
  | (k, v) :: rest => (k.keyData, v.toHostData) :: entryData rest

end

/-- The data of a CBOR document. -/
def read? (document : List UInt8) : Option HostData :=
  match readItem maxLevels .start document with
  | some item => if item.rest.isEmpty then some item.value.toHostData else none
  | none => none

/-- The value of a CBOR document (`DecodeCBOR`). -/
def decode (document : List UInt8) : Build Value :=
  match read? document with
  | some d => d.toValue
  | none => Build.fail .invalidCbor

end ExprLang.Cbor
