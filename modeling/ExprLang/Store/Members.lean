import ExprLang.Assoc
import ExprLang.Value

/-!
# Members

The members of an object and the names of a frame: a map from keys to values, with a list of the
keys beside it that keeps the order in which they were first written. What is looked up is looked up
in the map; what goes through all members goes through the list. The two are written together, and
nothing but that makes them agree.
-/

namespace ExprLang

/-- The members of an object (`ObjectValue`): values under text keys (`vals`), and the keys in the
    order of their first writing (`keys`). -/
structure Members where
  keys : List Text := []
  vals : List (Text × Value) := []
  deriving DecidableEq, Repr

namespace Members

/-- No members. -/
def empty : Members := {}

/-- The number of members, by the list of keys (`ObjectValue.Len`). -/
def size (m : Members) : Nat := m.keys.length

/-- The value under a key, by the map (`ObjectValue.Get`). -/
def get? (m : Members) (key : Text) : Option Value := m.vals.lookup key

/-- Whether there is a value under a key, by the map. -/
def has (m : Members) (key : Text) : Bool := (m.get? key).isSome

/-- The members in order: each key of the list with its value in the map. -/
def entries (m : Members) : List (Text × Value) :=
  m.keys.filterMap fun key => (m.get? key).map fun v => (key, v)

/-- Writes a value under a key (`ObjectValue.Set`). A key that the map does not have goes to the end
    of the list. -/
def put (m : Members) (key : Text) (v : Value) : Members where
  keys := if m.has key then m.keys else m.keys ++ [key]
  vals := Assoc.insert key v m.vals

/-- Writes several members one after the other. -/
def putAll (m : Members) (entries : List (Text × Value)) : Members :=
  entries.foldl (fun m entry => m.put entry.1 entry.2) m

/-- The members that some entries come to when they are written one after the other. -/
def ofList (entries : List (Text × Value)) : Members := empty.putAll entries

end Members

end ExprLang
