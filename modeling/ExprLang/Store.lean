import ExprLang.Function
import ExprLang.Store.Members

/-!
# The store

Frames, arrays, objects and functions live in cells that are only ever added. A frame is one link
of a chain of scopes: a name is looked up in the nearest frame of the chain that has it. A frame
without a parent is a root.
-/

namespace ExprLang

/-- One link of a chain of scopes (`SymbolTable`). -/
structure Frame where
  parent : Option Nat
  root : Nat
  members : Members

/-- The cells that references point to. -/
structure Store where
  frames : Array Frame := #[]
  arrays : Array (Array Value) := #[]
  objects : Array Members := #[]
  functions : Array Function := #[]

namespace Store

/-- A store without cells. -/
def empty : Store := {}

/-- The elements of an array (`ArrayValue.Elements`). -/
def elements (s : Store) (id : Nat) : Array Value := s.arrays.getD id #[]

/-- The members of an object. -/
def members (s : Store) (id : Nat) : Members := s.objects.getD id .empty

/-- The names of a frame itself, without those of its ancestors (`SymbolTable.Names`). -/
def bindings (s : Store) (id : Nat) : Members :=
  match s.frames[id]? with
  | some frame => frame.members
  | none => .empty

/-- The frame that a frame extends (`SymbolTable.Parent`). -/
def parent? (s : Store) (id : Nat) : Option Nat :=
  match s.frames[id]? with
  | some frame => frame.parent
  | none => none

/-- The last frame of a frame's chain (`SymbolTable.Root`). -/
def root (s : Store) (id : Nat) : Nat :=
  match s.frames[id]? with
  | some frame => frame.root
  | none => id

/-- Adds an array (`NewArray`). -/
def newArray (s : Store) (elems : Array Value) : Value × Store :=
  (.array s.arrays.size, { s with arrays := s.arrays.push elems })

/-- Adds an object (`NewObject`). -/
def newObject (s : Store) (members : Members) : Value × Store :=
  (.object s.objects.size, { s with objects := s.objects.push members })

/-- Adds a function. -/
def newFunction (s : Store) (f : Function) : Value × Store :=
  (.function s.functions.size, { s with functions := s.functions.push f })

/-- Adds a frame without names under a parent. -/
def newFrame (s : Store) (parent : Nat) : Nat × Store :=
  (s.frames.size,
    { s with frames := s.frames.push ⟨some parent, s.root parent, .empty⟩ })

/-- The nearest frame, from `id` on along the chain, that has a name (`SymbolTable.Owner`). Parents
    are older than their children, so the chain ends. -/
def owner? (s : Store) (name : Text) (id : Nat) : Option Nat :=
  match s.frames[id]? with
  | none => none
  | some frame =>
    if frame.members.has name then some id
    else
      match frame.parent with
      | none => none
      | some parent => if parent < id then s.owner? name parent else none
termination_by id

/-- The value of a name along the chain from a frame on (`SymbolTable.Get`). -/
def lookup? (s : Store) (id : Nat) (name : Text) : Option Value :=
  match s.owner? name id with
  | none => none
  | some owner => (s.bindings owner).get? name

/-- Binds a name in a frame itself (`SymbolTable.Set`). -/
def bind (s : Store) (id : Nat) (name : Text) (v : Value) : Store :=
  { s with frames := s.frames.modify id fun frame =>
      { frame with members := frame.members.put name v } }

/-- Writes a member of an object (`ObjectValue.Set`). -/
def setMember (s : Store) (id : Nat) (key : Text) (v : Value) : Store :=
  { s with objects := s.objects.modify id fun members => members.put key v }

/-- Writes an element of an array; an index that is the size adds an element (`ArrayValue.Set`). -/
def setElement (s : Store) (id index : Nat) (v : Value) : Store :=
  { s with arrays := s.arrays.modify id fun elems =>
      if index < elems.size then elems.setIfInBounds index v else elems.push v }

/-- Binds new functions in a frame (`SymbolTable.LoadFunc`). -/
def bindFunctions (s : Store) (id : Nat) (functions : List (Text × Function)) : Store :=
  functions.foldl
    (fun s entry =>
      let (v, s) := s.newFunction entry.2
      s.bind id entry.1 v)
    s

/-- Adds a root frame with the built-in functions (`NewRootScope`). -/
def newRoot (s : Store) : Nat × Store :=
  let id := s.frames.size
  let s := { s with frames := s.frames.push ⟨none, id, .empty⟩ }
  (id, s.bindFunctions id Function.builtins)

end Store

end ExprLang
