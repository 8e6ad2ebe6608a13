import ExprLang.Json.Reader
import ExprLang.Cbor.Reader

/-!
# Bindings from documents

A document whose top level is an object gives names their values.
-/

namespace ExprLang

/-- A document format that bindings are read from. -/
inductive DocumentFormat where
  | json
  | cbor

namespace DocumentFormat

/-- The format of a name. -/
def ofName? (name : String) : Option DocumentFormat :=
  if name = "json" then some .json
  else if name = "cbor" then some .cbor
  else none

/-- The value of a document. -/
def decode : DocumentFormat → List UInt8 → Build Value
  | .json, document => Json.decode (Text.mended ⟨document⟩)
  | .cbor, document => Cbor.decode document

end DocumentFormat

/-- The entries of a value, which has to be an object. -/
def Store.objectEntries (s : Store) : Value → Except Cause (List (Text × Value))
  | .object id => .ok (s.members id).entries
  | v => .error (.bindingsNotObject v.kind)

/-- The names that a document binds, with their values (`Bindings`). -/
def bindings (format : String) (document : List UInt8) : Build (List (Text × Value)) :=
  match DocumentFormat.ofName? format with
  | none => Build.fail (.unknownFormat format)
  | some f => do
    let v ← f.decode document
    fun s =>
      match s.objectEntries v with
      | .ok entries => .ok (entries, s)
      | .error cause => .error cause

end ExprLang
