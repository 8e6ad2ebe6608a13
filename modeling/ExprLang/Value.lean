import ExprLang.Double
import ExprLang.Text

/-!
# Values

Numbers and texts are values in themselves. Arrays, objects, functions and scopes are references to
cells of a store, so that every copy of a reference shares the cell.
-/

namespace ExprLang

/-- A value of the language. The number of a reference is the index of its cell. -/
inductive Value where
  | int (n : Int64)
  | double (x : Double)
  | text (t : Text)
  | array (id : Nat)
  | object (id : Nat)
  | function (id : Nat)
  | scope (id : Nat)
  deriving DecidableEq, Repr

namespace Value

/-- The kinds of values (`ValueKind`). -/
inductive Kind where
  | int | double | text | array | object | function | scope
  deriving DecidableEq, Repr

/-- What a kind is called in messages (`ValueKind.String`). -/
def Kind.title : Kind → String
  | .int => "INTEGER"
  | .double => "DOUBLE"
  | .text => "STRING"
  | .array => "ARRAY"
  | .object => "OBJECT"
  | .function => "FUNCTION"
  | .scope => "SCOPE"

/-- The kind of a value (`Value.Kind`). -/
def kind : Value → Kind
  | .int _ => .int
  | .double _ => .double
  | .text _ => .text
  | .array _ => .array
  | .object _ => .object
  | .function _ => .function
  | .scope _ => .scope

/-- The value of a test (`boolValue`): one or zero. -/
def ofBool (b : Bool) : Value := .int (if b then 1 else 0)

/-- The value of an empty program and of a branch that is missing. -/
def zero : Value := .int 0

/-- The number of things counted. -/
def ofNat (n : Nat) : Value := .int (Int64.ofInt n)

end Value

end ExprLang
