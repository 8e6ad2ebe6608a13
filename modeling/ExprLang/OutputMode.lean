import ExprLang.Json.Writer
import ExprLang.Store.Render

/-!
# How results are written
-/

namespace ExprLang

/-- The ways to write a result. -/
inductive OutputMode where
  | text
  | repr
  | json
  deriving DecidableEq, Repr

namespace OutputMode

/-- The name of a mode. -/
def name : OutputMode → String
  | .text => "text"
  | .repr => "repr"
  | .json => "json"

/-- All modes, in the order in which messages list them (`outputModes`). -/
def all : List OutputMode := [.text, .repr, .json]

/-- The mode of a name (`validOutput`). -/
def ofName? (s : String) : Option OutputMode := all.find? fun mode => mode.name = s

/-- The mode that a setting asks for: an empty setting asks for none. `path` is the file that the
    setting stands in. -/
def ofSetting (path : Option String) (s : String) : Except Cause (Option OutputMode) :=
  if s = "" then .ok none
  else
    match ofName? s with
    | some mode => .ok (some mode)
    | none => .error (.unknownOutputMode path s)

/-- A result written in a mode (`formatResult`). -/
def format (mode : OutputMode) (s : Store) (v : Value) : Except Cause Text :=
  match mode with
  | .text => .ok (s.text v)
  | .repr => .ok (s.repr v)
  | .json => (Json.encode s v).map Text.ofString

end OutputMode

end ExprLang
