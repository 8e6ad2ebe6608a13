import ExprLang.HostData

/-!
# Plain data

Numbers, texts, lists and maps without references: what a value is when it is written to a document.
Functions and scopes have no such form, and neither have containers that hold themselves.
-/

namespace ExprLang

/-- A value without references. -/
inductive Data where
  | int (n : Int64)
  | double (x : Double)
  | text (t : Text)
  | list (items : List Data)
  | map (entries : List (Text × Data))

namespace Store

/-- The results of a computation for every item, or the first failure. -/
def collect {α β : Type} (f : α → Except Cause β) : List α → Except Cause (List β)
  | [] => .ok []
  | a :: rest =>
    match f a with
    | .error cause => .error cause
    | .ok b =>
      match collect f rest with
      | .error cause => .error cause
      | .ok bs => .ok (b :: bs)

/-- The plain form of a value (`toNative`). `path` holds the containers that it is a part of, and
    `budget` bounds their number. -/
def dataWithin (s : Store) : Nat → List Value → Value → Except Cause Data
  | _, _, .int n => .ok (.int n)
  | _, _, .double x => .ok (.double x)
  | _, _, .text t => .ok (.text t)
  | _, _, .function id => .error (.notEncodable (Value.function id).kind)
  | _, _, .scope id => .error (.notEncodable (Value.scope id).kind)
  | 0, _, .array id => .error (.selfReferential (Value.array id).kind)
  | 0, _, .object id => .error (.selfReferential (Value.object id).kind)
  | budget + 1, path, .array id =>
    if path.contains (.array id) then .error (.selfReferential (Value.array id).kind)
    else (collect (s.dataWithin budget (.array id :: path)) (s.elements id).toList).map .list
  | budget + 1, path, .object id =>
    if path.contains (.object id) then .error (.selfReferential (Value.object id).kind)
    else
      (collect
        (fun entry => (s.dataWithin budget (.object id :: path) entry.2).map (Prod.mk entry.1))
        (s.members id).entries).map .map

/-- The plain form of a value (`ToNative`). -/
def data (s : Store) (v : Value) : Except Cause Data :=
  s.dataWithin (s.containers + 1) [] v

end Store

end ExprLang
