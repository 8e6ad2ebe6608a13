import ExprLang.Store.Render

/-!
# Slots

A slot is a place that has been found and can be read and written: a name seen from a frame, an
element of an array, a member of an object, or a value that lives in no container.
-/

namespace ExprLang

/-- A place that can be read and written (`Lvalue`). -/
inductive Slot where
  | name (scope : Nat) (key : Text)
  | element (array : Nat) (index : Int64)
  | member (object : Nat) (key : Text)
  | immediate (v : Value)
  deriving DecidableEq, Repr

namespace Slot

/-- The value in a slot (`Lvalue.Read`). -/
def read (s : Store) : Slot → Except Cause Value
  | .name scope key =>
    match s.lookup? scope key with
    | some v => .ok v
    | none => .error (.unknownSymbol key)
  | .element array index =>
    let elems := s.elements array
    if 0 ≤ index.toInt then
      match elems[index.toInt.toNat]? with
      | some v => .ok v
      | none => .error (.readOutside index elems.size)
    else .error (.readOutside index elems.size)
  | .member object key =>
    match (s.members object).get? key with
    | some v => .ok v
    | none => .error (.unknownSymbol key)
  | .immediate v => .ok v

/-- Writes a value to a slot (`Lvalue.Write`). A name that some frame of the chain has is written
    there, a new one in the slot's own frame; the element after the last is added to the array. The
    slot itself changes only if the value lives in no container. -/
def write (s : Store) (v : Value) : Slot → Except Cause (Slot × Store)
  | .name scope key =>
    .ok (.name scope key, s.bind ((s.owner? key scope).getD scope) key v)
  | .element array index =>
    let size := (s.elements array).size
    if 0 ≤ index.toInt ∧ index.toInt ≤ (size : Int) then
      .ok (.element array index, s.setElement array index.toInt.toNat v)
    else .error (.writeOutside index size)
  | .member object key => .ok (.member object key, s.setMember object key v)
  | .immediate _ => .ok (.immediate v, s)

/-- The slot `base[key]` (`resolveIndex`): values that are no containers are their own slot. -/
def ofIndex (s : Store) (base key : Value) : Except Cause Slot :=
  match base with
  | .array id =>
    match key with
    | .int index => .ok (.element id index)
    | _ => .error (.indexKind key.kind)
  | .object id => .ok (.member id (s.text key))
  | .scope id => .ok (.name id (s.text key))
  | _ => .ok (.immediate base)

/-- The slot `base.name` (`resolveMember`). -/
def ofMember (base : Value) (name : Text) : Slot :=
  match base with
  | .object id => .member id name
  | .scope id => .name id name
  | _ => .immediate base

end Slot

end ExprLang
