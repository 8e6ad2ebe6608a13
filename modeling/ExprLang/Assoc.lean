/-!
# Lists as maps

A list of keys with values is a map from its keys to values: what counts for a key is its first
entry. Writing keeps a key once if it was there once.
-/

namespace ExprLang.Assoc

variable {κ α : Type} [DecidableEq κ]

/-- Gives a key a value, in place of the one it had. -/
def insert (key : κ) (a : α) : List (κ × α) → List (κ × α)
  | [] => [(key, a)]
  | (k, b) :: rest => if k = key then (key, a) :: rest else (k, b) :: insert key a rest

/-- Gives several keys their values one after the other. -/
def insertAll (layer entries : List (κ × α)) : List (κ × α) :=
  layer.foldl (fun entries entry => insert entry.1 entry.2 entries) entries

end ExprLang.Assoc
