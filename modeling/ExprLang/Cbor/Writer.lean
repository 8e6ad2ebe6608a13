import ExprLang.Data

/-!
# Writing CBOR

The canonical form: every number and length in as few bytes as it fits in, and the members of a map
in the order of their written keys, shorter keys first.
-/

namespace ExprLang.Cbor

/-- A number as `count` bytes, most significant first. -/
def bigEndian : Nat → Nat → List UInt8
  | 0, _ => []
  | count + 1, n => UInt8.ofNat (n / Nat.pow 256 count) :: bigEndian count (n % Nat.pow 256 count)

/-- The head of an item: its major type and an argument. -/
def head (major argument : Nat) : List UInt8 :=
  if argument < 24 then [UInt8.ofNat (32 * major + argument)]
  else if argument < 256 then UInt8.ofNat (32 * major + 24) :: bigEndian 1 argument
  else if argument < 65536 then UInt8.ofNat (32 * major + 25) :: bigEndian 2 argument
  else if argument < 4294967296 then UInt8.ofNat (32 * major + 26) :: bigEndian 4 argument
  else UInt8.ofNat (32 * major + 27) :: bigEndian 8 argument

/-- A whole number. -/
def writeInt (n : Int) : List UInt8 :=
  if 0 ≤ n then head 0 n.toNat else head 1 (-1 - n).toNat

/-- A text. -/
def writeText (t : Text) : List UInt8 :=
  head 3 t.bytes.length ++ t.bytes

/-- A magnitude pattern of a format with its sign. -/
def signedPattern (f : Number.Format) (negative : Bool) (magnitude : Nat) : Nat :=
  if negative then f.signBit + magnitude else magnitude

open Number in
/-- A double, in the shortest of the formats that keep its value. -/
def writeDouble (x : Double) : List UInt8 :=
  let m := x.magnitude
  let half := Format.convert Format.double Format.half m
  let single := Format.convert Format.double Format.single m
  if x.isNaN then [0xF9, 0x7E, 0x00]
  else if Format.convert Format.half Format.double half = m then
    0xF9 :: bigEndian 2 (signedPattern Format.half x.isNegative half)
  else if Format.convert Format.single Format.double single = m then
    0xFA :: bigEndian 4 (signedPattern Format.single x.isNegative single)
  else 0xFB :: bigEndian 8 x.bits.toNat

/-- Whether one list of bytes comes before another of the same length, or is the same. -/
def bytesLe : List UInt8 → List UInt8 → Bool
  | [], _ => true
  | _ :: _, [] => false
  | a :: as, b :: bs => if a = b then bytesLe as bs else decide (a < b)

/-- The canonical order of written keys. -/
def keyLe (a b : List UInt8) : Bool :=
  if a.length = b.length then bytesLe a b else decide (a.length < b.length)

mutual

/-- The item of plain data. -/
def write : Data → List UInt8
  | .int n => writeInt n.toInt
  | .double x => writeDouble x
  | .text t => writeText t
  | .list items => head 4 items.length ++ (writeItems items).flatten
  | .map entries =>
    head 5 entries.length
      ++ ((writeEntries entries).mergeSort fun a b => keyLe a.1 b.1).flatMap fun e => e.1 ++ e.2

/-- The items of a list. -/
def writeItems : List Data → List (List UInt8)
  | [] => []
  | item :: items => write item :: writeItems items

/-- The keys and values of a map. -/
def writeEntries : List (Text × Data) → List (List UInt8 × List UInt8)
  | [] => []
  | (key, d) :: rest => (writeText key, write d) :: writeEntries rest

end

/-- The CBOR item of a value (`EncodeCBOR`). -/
def encode (s : Store) (v : Value) : Except Cause (List UInt8) :=
  (s.data v).map write

end ExprLang.Cbor
