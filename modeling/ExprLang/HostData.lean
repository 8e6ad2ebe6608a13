import ExprLang.Number.Integer
import ExprLang.Store.Slot

/-!
# Data from the host

Plain data becomes values of the language. The members of a map are taken in the order of their
keys, whatever order the map lists them in, so that the first entry in that order that cannot be
converted decides the failure.
-/

namespace ExprLang

/-- Data that a host hands over. -/
inductive HostData where
  /-- Data of a type that has no values, by the type's name. -/
  | unsupported (type : String)
  | bool (b : Bool)
  | int (n : Int64)
  | unsigned (n : UInt64)
  /-- A whole number of any size. -/
  | big (n : Int)
  | double (x : Double)
  | text (t : Text)
  /-- A number as it was written. -/
  | number (written : String)
  | list (items : List HostData)
  | map (entries : List (Text × HostData))
  /-- A map whose keys are data of any type; keys are known by their text. -/
  | keyedMap (entries : List (HostData × HostData))
  | native (f : Native)
  /-- A pointer to data. -/
  | pointer (target : HostData)
  /-- A pointer to nothing, by the name of its type. -/
  | nilPointer (type : String)
  /-- A value that is one already. -/
  | value (v : Value)

instance : Inhabited HostData := ⟨.bool false⟩

/-- A construction in the store that may fail. -/
def Build (α : Type) : Type := Store → Except Cause (α × Store)

namespace Build

variable {α β : Type}

/-- Constructs nothing. -/
@[inline] def done (a : α) : Build α := fun s => .ok (a, s)

/-- One construction after the other. -/
@[inline] def andThen (x : Build α) (f : α → Build β) : Build β := fun s =>
  match x s with
  | .ok (a, s) => f a s
  | .error cause => .error cause

instance : Monad Build where
  pure := done
  bind := andThen

/-- Fails. -/
def fail (cause : Cause) : Build α := fun _ => .error cause

/-- A construction that cannot fail. -/
@[inline] def of (f : Store → α × Store) : Build α := fun s => .ok (f s)

/-- The values of some constructions under keys, in order. -/
def sequence : List (Text × Build Value) → Build (List (Text × Value))
  | [] => return []
  | (key, x) :: rest => do
    let v ← x
    let vs ← sequence rest
    return (key, v) :: vs

end Build

/-- Entries without those whose key comes again later. -/
def lastOfEach {κ α : Type} (same : κ → κ → Bool) : List (κ × α) → List (κ × α)
  | [] => []
  | (key, a) :: rest =>
    if rest.any fun entry => same entry.1 key then lastOfEach same rest
    else (key, a) :: lastOfEach same rest

/-- Entries in the order of their keys; entries of the same key keep their order. -/
def sortedByKey {α : Type} (entries : List (Text × α)) : List (Text × α) :=
  entries.mergeSort fun a b => decide (a.1 ≤ b.1)

/-- The value of a number as it was written (`numberToValue`). A whole number is read as one of 64
    bits, or, if it does not fit, as one of any size that wraps; what is no whole number is a
    double. -/
def numberValue (written : String) : Except Cause Value :=
  match Number.int64? written.toList with
  | some n => .ok (.int n)
  | none =>
    match Number.integer? written.toList with
    | some n => .ok (.int (Number.wrapBig n))
    | none =>
      match Double.read? written with
      | some x => .ok (.double x)
      | none => .error (.unsupportedNumber written)

/-- Adds an object with the entries in the order of their keys. -/
def Build.object (entries : List (Text × Build Value)) : Build Value := do
  let vs ← Build.sequence (sortedByKey entries)
  Build.of fun s => s.newObject (Members.ofList vs)

namespace HostData

mutual

/-- The value of data (`ToValue`). Pointers stand for what they point to. -/
def toValue : HostData → Build Value
  | .unsupported type => Build.fail (.unsupportedData type)
  | .bool b => return .ofBool b
  | .int n => return .int n
  | .unsigned n => return .int n.toInt64
  | .big n => return .int (Number.wrapBig n)
  | .double x => return .double x
  | .text t => return .text t
  | .number written => fun s =>
    match numberValue written with
    | .ok v => .ok (v, s)
    | .error cause => .error cause
  | .list items => do
    let vs ← toValues items
    Build.of fun s => s.newArray vs.toArray
  | .map entries => Build.object (entryValues entries)
  | .keyedMap entries => do
    let keyed ← keyTexts entries
    Build.object keyed
  | .native f => Build.of fun s => s.newFunction (.primitive (.native f))
  | .pointer target => toValue target
  | .nilPointer type => Build.fail (.unsupportedData type)
  | .value v => return v

/-- The values of a list's items, in order. -/
def toValues : List HostData → Build (List Value)
  | [] => return []
  | item :: items => do
    let v ← toValue item
    let vs ← toValues items
    return v :: vs

/-- What it takes to convert the entries of a map. -/
def entryValues : List (Text × HostData) → List (Text × Build Value)
  | [] => []
  | (key, data) :: rest => (key, toValue data) :: entryValues rest

/-- The texts of the keys of a map, and what it takes to convert the entries (`reflectToValue`). -/
def keyTexts : List (HostData × HostData) → Build (List (Text × Build Value))
  | [] => return []
  | (key, data) :: rest => do
    let k ← toValue key
    let text ← Build.of fun s => (s.text k, s)
    let others ← keyTexts rest
    return (text, toValue data) :: others

end

end HostData

namespace Store

/-- Adds a frame under a parent, or a root frame, and binds data in the order of the names
    (`NewSymbolTable`). -/
def newScope (parent : Option Nat) (initial : List (Text × HostData)) : Build Nat := do
  let id ← Build.of fun s =>
    match parent with
    | none => s.newRoot
    | some parent => s.newFrame parent
  let vs ← Build.sequence (sortedByKey (HostData.entryValues initial))
  Build.of fun s => (id, vs.foldl (fun s entry => s.bind id entry.1 entry.2) s)

/-- Binds data in a frame itself (`SymbolTable.Set`). -/
def bindData (id : Nat) (name : Text) (data : HostData) : Build Value := do
  let v ← data.toValue
  Build.of fun s => (v, s.bind id name v)

end Store

/-- Stores data in a slot, and answers with its value (`Lvalue.Write`). Whether the slot can be
    written is settled before the data is converted. -/
def Slot.put (slot : Slot) (data : HostData) : Build Value := fun s =>
  match slot.write s .zero with
  | .error cause => .error cause
  | .ok _ =>
    match data.toValue s with
    | .error cause => .error cause
    | .ok (v, s) =>
      match slot.write s v with
      | .ok (_, s) => .ok (v, s)
      | .error cause => .error cause

end ExprLang
