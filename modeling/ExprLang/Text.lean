/-!
# Texts

A text is a sequence of bytes. The text of some characters is their UTF-8 form, and most texts are
of that kind, but a host, or a document that holds byte strings, may bring in any bytes. Texts are
told apart, ordered and joined by their bytes. What works on characters reads the bytes from the
left, one character after the other, and meets a replacement character for each byte that begins
none.
-/

namespace ExprLang

/-- A text, by its bytes (`TextValue`). -/
structure Text where
  bytes : List UInt8
  deriving DecidableEq, Repr, Inhabited

namespace Text

/-- The text of some characters. -/
def ofString (s : String) : Text := ⟨s.toUTF8.data.toList⟩

instance : Coe String Text := ⟨ofString⟩

/-- One text after the other. -/
def append (t u : Text) : Text := ⟨t.bytes ++ u.bytes⟩

instance : Append Text := ⟨append⟩

/-- Texts with a separator between them. -/
def join (separator : Text) (texts : List Text) : Text :=
  ⟨separator.bytes.intercalate (texts.map bytes)⟩

/-- Whether a text has no bytes. -/
def isEmpty (t : Text) : Bool := t.bytes.isEmpty

-- The order of texts is that of their bytes. On the texts of characters it is the order of the
-- characters' codes.
instance : LT Text := ⟨fun t u => t.bytes < u.bytes⟩

instance : LE Text := ⟨fun t u => t.bytes ≤ u.bytes⟩

instance : DecidableLT Text := fun t u => inferInstanceAs (Decidable (t.bytes < u.bytes))

instance : DecidableLE Text := fun t u => inferInstanceAs (Decidable (t.bytes ≤ u.bytes))

instance : Ord Text := ⟨fun t u => compareOfLessAndEq t u⟩

/-- The characters of a text, if it is the text of some. -/
def toString? (t : Text) : Option String := String.fromUTF8? ⟨t.bytes.toArray⟩

/-- The characters that bytes are read as, after the first `skip` of them; nothing stands for a byte
    that begins no character. -/
def scan : Nat → List UInt8 → List (Option Char)
  | _, [] => []
  | skip + 1, _ :: bs => scan skip bs
  | 0, b :: bs =>
    -- No character has more than four bytes.
    match ByteArray.utf8DecodeChar? ⟨(b :: bs.take 3).toArray⟩ 0 with
    | some c => some c :: scan (c.utf8Size - 1) bs
    | none => none :: scan 0 bs

/-- The characters that a text is read as. -/
def chars (t : Text) : List (Option Char) := scan 0 t.bytes

/-- The character that stands for a byte that begins none. -/
def replacement : Char := '�'

/-- The characters that a text is read as, with replacements. -/
def mended (t : Text) : String := String.ofList (t.chars.map fun c? => c?.getD replacement)

end Text

end ExprLang
