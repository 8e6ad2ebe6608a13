import ExprLang.Store

/-!
# Equality of values

Numbers are compared by value, arrays element by element, objects member by member in any order, and
functions and scopes by identity. A comparison that comes back to a pair of containers it is already
comparing has no end, and no answer.
-/

namespace ExprLang

/-- A number as a double (`toFloat`). -/
def Value.toDouble? : Value → Option Double
  | .int n => some (Double.ofInt n.toInt)
  | .double x => some x
  | _ => none

namespace Store

/-- Whether all answers are yes: the first no decides, and so does the first missing answer. -/
def allEqual {α : Type} (test : α → Option Bool) : List α → Option Bool
  | [] => some true
  | a :: rest =>
    match test a with
    | some true => allEqual test rest
    | answer => answer

/-- Whether two values are equal, comparing containers nested up to `budget` deep. -/
def equalWithin (s : Store) : Nat → Value → Value → Option Bool
  | _, .int m, .int n => some (decide (m = n))
  | _, .int m, .double y => some ((Double.ofInt m.toInt).equals y)
  | _, .double x, .int n => some (x.equals (Double.ofInt n.toInt))
  | _, .double x, .double y => some (x.equals y)
  | _, .text a, .text b => some (decide (a = b))
  | _, .function i, .function j => some (decide (i = j))
  | _, .scope i, .scope j => some (decide (i = j))
  | 0, .array i, .array j => if i = j then some true else none
  | 0, .object i, .object j => if i = j then some true else none
  | budget + 1, .array i, .array j =>
    if i = j then some true
    else if (s.elements i).size ≠ (s.elements j).size then some false
    else
      allEqual (fun pair => s.equalWithin budget pair.1 pair.2)
        ((s.elements i).toList.zip (s.elements j).toList)
  | budget + 1, .object i, .object j =>
    if i = j then some true
    else if (s.members i).size ≠ (s.members j).size then some false
    else
      allEqual
        (fun entry =>
          match (s.members j).get? entry.1 with
          | none => some false
          | some other => s.equalWithin budget entry.2 other)
        (s.members i).entries
  | _, _, _ => some false

/-- Whether two values are equal (`Value.Equals`). A chain of nested pairs that is longer than there
    are pairs of containers has one of them twice. -/
def equal? (s : Store) (a b : Value) : Option Bool :=
  let containers := s.arrays.size + s.objects.size
  s.equalWithin (containers * containers + 1) a b

/-- Whether a value counts as true (`Truthy`): zero and what is empty do not. Functions and scopes
    are neither. -/
def truthy? (s : Store) : Value → Option Bool
  | .int n => some (n ≠ 0)
  | .double x => some (!x.isZero)
  | .text t => some (!t.isEmpty)
  | .array id => some (!(s.elements id).isEmpty)
  | .object id => some ((s.members id).size ≠ 0)
  | .function _ | .scope _ => none

end Store

end ExprLang
