import ExprLang.Store
import ExprLang.Text.Escape

/-!
# Values as text

`repr` writes a value as a literal of the language, one element or member a line; `text` is the
same, except that a text stands for itself. A container inside its own rendering is written as
`[...]` or `{...}`.
-/

namespace ExprLang.Store

/-- The byte that ends a line. -/
def lineEnd : UInt8 := '\n'.toUInt8

/-- Indents every line but the first. -/
def indent (t : Text) : Text :=
  ⟨t.bytes.flatMap fun b => if b = lineEnd then b :: "  ".toUTF8.data.toList else [b]⟩

/-- Elements between brackets, one a line (`encodePath`). -/
def bracketed (elems : List Text) : Text :=
  if elems.isEmpty then "[]"
  else "[\n  " ++ Text.join ",\n  " elems ++ "\n]"

/-- Members between braces, one a line (`encodeMembers`). -/
def braced (members : List Text) : Text :=
  if members.isEmpty then "\x7b\x7d"
  else "\x7b\n  " ++ Text.join ",\n  " members ++ "\n\x7d"

/-- Renders a value (`encodePath`). `path` holds the containers whose rendering this is a part of,
    and `budget` bounds their number. -/
def render (s : Store) : Nat → List Value → Value → Text
  | _, _, .int n => toString n.toInt
  | _, _, .double x => x.toText
  | _, _, .text t => Text.quote t.mended
  | _, _, .function _ => "<Function>"
  | _, _, .scope _ => "<SCOPE>"
  | 0, _, .array id => if (s.elements id).isEmpty then "[]" else "[...]"
  | 0, _, .object _ => "\x7b...\x7d"
  | budget + 1, path, .array id =>
    if (s.elements id).isEmpty then "[]"
    else if path.contains (.array id) then "[...]"
    else
      bracketed ((s.elements id).toList.map fun v =>
        indent (s.render budget (.array id :: path) v))
  | budget + 1, path, .object id =>
    if path.contains (.object id) then "\x7b...\x7d"
    else
      braced ((s.members id).entries.map fun entry =>
        entry.1 ++ " : " ++ indent (s.render budget (.object id :: path) entry.2))

/-- The number of containers, which bounds the nesting of a rendering. -/
def containers (s : Store) : Nat := s.arrays.size + s.objects.size

/-- A value that stands inside another one, or on its own unless it is a scope (`encode`). -/
def encoded (s : Store) (v : Value) : Text :=
  s.render (s.containers + 1) [] v

/-- A frame with its ancestors (`SymbolTable.encoded`). The names `GLOBAL` and `UPSCOPE` are not
    followed. -/
def renderFrame (s : Store) (id : Nat) : Text :=
  match s.frames[id]? with
  | none => braced []
  | some frame =>
    let ancestors : List Text :=
      match frame.parent with
      | none => []
      | some parent =>
        if parent < id then ["__PARENT__ : " ++ indent (s.renderFrame parent)] else []
    braced (ancestors ++ frame.members.entries.map fun (entry : Text × Value) =>
      if entry.1 = "GLOBAL" ∨ entry.1 = "UPSCOPE" then entry.1 ++ " : <" ++ entry.1 ++ ">"
      else entry.1 ++ " : " ++ indent (s.encoded entry.2))
termination_by id

/-- A value as a literal; a scope with all its names (`Repr`). -/
def repr (s : Store) : Value → Text
  | .scope id => s.renderFrame id
  | v => s.encoded v

/-- A value as text (`Value.String`). -/
def text (s : Store) : Value → Text
  | .text t => t
  | v => s.repr v

end ExprLang.Store
