import ExprLang.Bindings
import ExprLang.Engine
import ExprLang.Files
import ExprLang.OutputMode
import ExprLang.Toml.Reader

/-!
# Settings and symbols from files

Settings stand in a TOML file; names in it are known whether their letters are small or not. Symbols
stand in files of three formats, told apart by the endings of their paths.
-/

namespace ExprLang

/-- Names with data to be bound before any program runs. -/
abbrev Symbols := List (Text × HostData)

/-- The settings of a file. -/
structure Config where
  debug : DebugFlags := {}
  /-- The greatest number of nested calls, as engines take it. -/
  maxDepth : Int := 0
  output : Option OutputMode := none
  symbols : Symbols := []

namespace Config

/-- The form of a character that it shares with its other forms. -/
def foldChar (c : Char) : Char :=
  if c.toNat = 0x17F then 's' else Text.lowerChar c

/-- Whether two names differ in the size of their letters only. -/
def sameName (a : Text) (b : String) : Bool :=
  a.mended.toList.map foldChar = b.toList.map foldChar

/-- A truth value of the settings. -/
def flag? : HostData → Option Bool
  | .bool b => some b
  | _ => none

/-- Applies a setting of the debugging table. -/
def applyDebug (flags : DebugFlags) (entry : Text × HostData) : Option DebugFlags :=
  if sameName entry.1 "lex" then (flag? entry.2).map fun b => { flags with lex := b }
  else if sameName entry.1 "parse" then (flag? entry.2).map fun b => { flags with parse := b }
  else if sameName entry.1 "dump" then (flag? entry.2).map fun b => { flags with dump := b }
  else some flags

/-- What a settings file holds before the name of its output mode is looked at. -/
structure Draft where
  config : Config := {}
  output : String := ""

/-- Applies a setting. Names that are not known are passed over, and so are symbols that are no
    table. -/
def apply (draft : Draft) (entry : Text × HostData) : Option Draft :=
  if sameName entry.1 "max_depth" then
    match entry.2 with
    | .int n => some { draft with config := { draft.config with maxDepth := n.toInt } }
    | _ => none
  else if sameName entry.1 "output" then
    match entry.2 with
    | .text t => some { draft with output := t.mended }
    | _ => none
  else if sameName entry.1 "debug" then
    match entry.2 with
    | .map entries => do
      let flags ← entries.foldlM applyDebug draft.config.debug
      return { draft with config := { draft.config with debug := flags } }
    | _ => none
  else if sameName entry.1 "symbols" then
    match entry.2 with
    | .map entries => some { draft with config := { draft.config with symbols := entries } }
    | _ => some draft
  else some draft

/-- The settings of a document; `path` is where it was read. -/
def ofDocument (path : String) (document : List UInt8) : Except Cause Config :=
  match (Toml.read? document).bind fun entries => entries.foldlM apply {} with
  | none => .error (.unparsedFile path)
  | some draft =>
    match OutputMode.ofSetting (some path) draft.output with
    | .ok output => .ok { draft.config with output }
    | .error cause => .error cause

end Config

/-- The content of a file that is needed. -/
def FileReader.need (read : FileReader) (path : String) : Except Cause (List UInt8) :=
  match read path with
  | .ok document => .ok document
  | .error e => .error (.unreadableFile path (e.message path))

/-- The settings at a path (`LoadConfig`). -/
def Config.load (read : FileReader) (path : String) : Except Cause Config :=
  match read.need path with
  | .ok document => Config.ofDocument path document
  | .error cause => .error cause

namespace Symbols

/-- The symbols of a document; `path` is where it was read. -/
def ofDocument (path : String) (document : List UInt8) : Build Symbols :=
  let kind := Path.ending path
  if kind = ".json" ∨ kind = ".cbor" then do
    let entries ← bindings (if kind = ".json" then "json" else "cbor") document
    return entries.map fun (name, v) => (name, .value v)
  else if kind = ".toml" then
    match Toml.read? document with
    | some entries => return entries
    | none => Build.fail (.unparsedFile path)
  else Build.fail (.symbolFileType path kind)

/-- The symbols at a path (`LoadSymbols`). -/
def load (read : FileReader) (path : String) : Build Symbols :=
  match read.need path with
  | .ok document => ofDocument path document
  | .error cause => Build.fail cause

/-- Layers of symbols as one (`mergeSymbols`): what comes later counts. -/
def merge (layers : List Symbols) : Symbols :=
  Assoc.insertAll layers.flatten []

end Symbols

end ExprLang
