import ExprLang.HostData

/-!
# TOML tables

A document fills a tree of tables. Headers and dotted keys lead to a table by a path; the tables on
the way that are not there yet are made. A table that was only made on the way may still get a
header of its own, once.
-/

namespace ExprLang.Toml

/-- What a name stands for in a table. -/
inductive Node where
  | leaf (data : HostData)
  /-- A table; `onTheWay` if so far it was only made on the way to another one. -/
  | table (onTheWay : Bool) (entries : List (String × Node))
  /-- The tables of a header that may be repeated; the last one is open. -/
  | tables (items : List (List (String × Node)))

/-- The names of a table with what they stand for. -/
abbrev Entries := List (String × Node)

namespace Entries

/-- What a name stands for. -/
def get? (entries : Entries) (key : String) : Option Node := entries.lookup key

/-- Gives a name a new meaning. -/
def set (key : String) (node : Node) : Entries → Entries
  | [] => [(key, node)]
  | (k, old) :: rest => if k = key then (k, node) :: rest else (k, old) :: set key node rest

/-- Changes the table that a path leads to. `met` says whether tables on the way still count as
    made on the way afterwards. -/
def update (met : Bool → Bool) (f : Entries → Option Entries) :
    List String → Entries → Option Entries
  | [], entries => f entries
  | key :: path, entries =>
    match entries.get? key with
    | none => do
      let inner ← update met f path []
      return entries.set key (.table true inner)
    | some (.table onTheWay inner) => do
      let inner ← update met f path inner
      return entries.set key (.table (met onTheWay) inner)
    | some (.tables items) =>
      match items.getLast? with
      | none => none
      | some last => do
        let last ← update met f path last
        return entries.set key (.tables (items.dropLast ++ [last]))
    | some (.leaf _) => none

/-- Opens the table of a header. -/
def openTable (key : String) (entries : Entries) : Option Entries :=
  match entries.get? key with
  | none => some (entries.set key (.table false []))
  | some (.table true inner) => some (entries.set key (.table false inner))
  | some _ => none

/-- Opens a new table of a header that may be repeated. -/
def openNext (key : String) (entries : Entries) : Option Entries :=
  match entries.get? key with
  | none => some (entries.set key (.tables [[]]))
  | some (.tables items) => some (entries.set key (.tables (items ++ [[]])))
  | some _ => none

/-- Gives a name its value. A name has one value only; a table that was made on the way stays, and
    counts as named from then on. -/
def assign (key : String) (value : Node) (entries : Entries) : Option Entries :=
  match entries.get? key, value with
  | none, _ => some (entries.set key value)
  | some (.table true inner), .leaf _ => some (entries.set key (.table false inner))
  | some _, _ => none

/-- Gives the name at the end of a dotted key its value. -/
def assignDotted (path : List String) (key : String) (value : Node) (entries : Entries) :
    Option Entries :=
  update (fun _ => false) (assign key value) path entries

end Entries

mutual

/-- The data of a node. -/
def Node.toHostData : Node → HostData
  | .leaf data => data
  | .table _ entries => .map (entryData entries)
  | .tables items => .list (tableData items)

/-- The data of a table's entries. -/
def entryData : List (String × Node) → List (Text × HostData)
  | [] => []
  | (key, node) :: rest => (key, node.toHostData) :: entryData rest

/-- The data of repeated tables. -/
def tableData : List (List (String × Node)) → List HostData
  | [] => []
  | entries :: rest => .map (entryData entries) :: tableData rest

end

end ExprLang.Toml
