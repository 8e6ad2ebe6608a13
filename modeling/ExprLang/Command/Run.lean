import ExprLang.Command.Options
import ExprLang.Command.Prompt

/-!
# The command

The command reads its settings and symbols, and then runs an expression, files, its input, or a
session at the prompt. What it does is settled by its arguments and its surroundings.
-/

namespace ExprLang.Command

/-- What the command finds when it is started. -/
structure Surroundings where
  read : FileReader
  /-- The working directory. -/
  directory : String
  /-- The home directory. -/
  home : String
  /-- All of the standard input. -/
  input : List UInt8 := []
  /-- Whether the standard input is a terminal. -/
  terminal : Bool := false
  /-- The time that log lines show. -/
  clock : String

/-- How the command ends. -/
structure Ending where
  exit : Nat := 0
  out : Text := ""
  err : String := ""
  /-- The new text of the history file, if it is written. -/
  history : Option String := none

/-- Ends with what has been written. -/
def Transcript.finish (t : Transcript) (exit : Nat) : Ending :=
  { exit, out := t.out, err := t.err }

/-- Ends with a complaint. -/
def refuse (reason : Reason) (text : String) : Ending :=
  { exit := reason.exitCode, err := Console.complaint reason.heading [text] }

/-- The path of the history file. -/
def historyPath (around : Surroundings) : String := Path.join around.home historyName

/-- The path of a program file from the root. -/
def programPath (directory home given : String) : String :=
  Path.absolute directory (Path.expandHome home given)

/-- The files that options ask for. -/
def Options.paths (o : Options) (directory home : String) : List String :=
  o.config.toList ++ o.symbols.toList ++ o.files.map (programPath directory home)
    ++ [Path.join home historyName]

/-- Prints a result. -/
def printResult (mode : OutputMode) (v : Value) (t : Transcript) : Transcript :=
  match mode.format t.store v with
  | .ok text => t.print (text ++ "\n")
  | .error cause => t.complain (Console.complaint Reason.runtime.heading [cause.message])

/-- Runs a program, which ends the command if it fails (`run`). -/
def runSource (around : Surroundings) (engine : Engine) (scope : Nat) (mode : OutputMode)
    (shown : Bool) (source : String) (t : Transcript) : Option Ending := do
  match ← t.exec around.clock engine scope source with
  | (.ok v, t) => return (if shown then printResult mode v t else t).finish 0
  | (.error f, t) => return (t.complain (f.complaint none)).finish f.reason.exitCode

/-- Runs the characters of a program file (`Context.ExecPath`). -/
def runFile (around : Surroundings) (engine : Engine) (scope : Nat) (path : String)
    (t : Transcript) : Option (Except Fault Value × Transcript) :=
  match around.read path with
  | .ok document => t.exec around.clock engine scope (Text.mended ⟨document⟩)
  | .error .isDirectory =>
    some (.error (.of (.unreadableProgram (FileError.message path .isDirectory))), t)
  | .error e => some (.error (.of (.unopenedProgram path (e.message path))), t)

/-- Runs program files in one scope; all of them run, whether those before them fail or not. The
    answer says whether one has failed. -/
def runFiles (around : Surroundings) (engine : Engine) (scope : Nat) (mode : OutputMode)
    (shown : Bool) : List String → Transcript → Option (Bool × Transcript)
  | [], t => some (false, t)
  | given :: rest, t => do
    let path := programPath around.directory around.home given
    match ← runFile around engine scope path t with
    | (.ok v, t) =>
      runFiles around engine scope mode shown rest (if shown then printResult mode v t else t)
    | (.error f, t) =>
      let (_, t) ← runFiles around engine scope mode shown rest
        (t.complain (f.complaint (some path)))
      return (true, t)

/-- What a session at the prompt begins with. -/
def openPrompt (around : Surroundings) (scope : Nat) (t : Transcript) : SessionState :=
  { transcript := { t with store := t.store.bindFunctions scope Function.prompt }
    history :=
      match around.read (historyPath around) with
      | .ok document => readHistory document
      | .error _ => [] }

/-- The new text of the history file, if there can be one. -/
def closePrompt (around : Surroundings) (last : SessionState) : Option String :=
  match around.read (historyPath around) with
  | .error .isDirectory => none
  | _ => some (writeHistory last.history)

/-- Holds a session at the prompt (`runRepl`). -/
def runPrompt (around : Surroundings) (session : Session) (t : Transcript) : Option Ending := do
  let last ← session.run (openPrompt around session.scope t) (lines around.input)
  return { last.transcript.finish 0 with history := closePrompt around last }

/-- The symbols that options and settings ask for. -/
def Options.allSymbols (o : Options) (around : Surroundings) (config : Config) : Build Symbols :=
  match o.symbols with
  | none => return config.symbols
  | some path => do
    let symbols ← Symbols.load around.read path
    return Symbols.merge [config.symbols, symbols]

/-- The settings that options ask for. -/
def Options.settings (o : Options) (around : Surroundings) : Except Cause Config :=
  match o.config with
  | none => .ok {}
  | some path => Config.load around.read path

/-- Whether options ask for the prompt: it is there without being asked for if nothing else is to
    be run and the input is a terminal. -/
def Options.atPrompt (o : Options) (terminal : Bool) : Bool :=
  o.repl || (o.eval.isNone && o.files.isEmpty && terminal)

/-- Whether options ask for the program in the standard input. -/
def Options.readsInput (o : Options) (terminal : Bool) : Bool :=
  !o.atPrompt terminal && o.eval.isNone && o.files.isEmpty

/-- The settings and the scope that programs are run in. -/
structure Start where
  config : Config
  scope : Nat
  transcript : Transcript

/-- Reads the settings and binds the symbols (`newContext`). -/
def Options.start (o : Options) (around : Surroundings) : Except Ending Start :=
  match o.settings around with
  | .error cause => .error (refuse .system cause.message)
  | .ok config =>
    match o.allSymbols around config Store.empty with
    | .error cause => .error (refuse .system cause.message)
    | .ok (symbols, store) =>
      match Store.newScope none symbols store with
      | .error cause => .error (refuse .malformed ("invalid symbols: " ++ cause.message))
      | .ok (scope, store) => .ok ⟨config, scope, { store }⟩

/-- What a session at the prompt runs under. -/
def Options.session (o : Options) (around : Surroundings) (start : Start) : Session :=
  ⟨o.engine start.config, start.scope, o.outputMode start.config .repr, around.clock⟩

/-- Runs what the options ask for. -/
def Options.run (o : Options) (around : Surroundings) : Option Ending :=
  match o.start around with
  | .error ending => some ending
  | .ok start =>
    let t := start.transcript
    if o.atPrompt around.terminal then runPrompt around (o.session around start) t
    else
      let engine := o.engine start.config
      let mode := o.outputMode start.config .text
      match o.eval, o.files with
      | some source, _ => runSource around engine start.scope mode true source t
      | none, [] =>
        runSource around engine start.scope mode o.print (Text.mended ⟨around.input⟩) t
      | none, files => do
        let (failed, t) ← runFiles around engine start.scope mode o.print files t
        return t.finish (if failed then 1 else 0)

/-- Runs the command, which has an ending unless one of its programs has none (`main`). -/
def run (around : Surroundings) (args : List String) : Option Ending :=
  match request args with
  | .inform text => some { out := (text ++ "\n" : String) }
  | .misused misuse =>
    let said :=
      match misuse.message with
      | some text => text ++ "\n"
      | none => ""
    some { exit := 1, err := said ++ usage ++ "\n" }
  | .refused cause => some (refuse .system cause.message)
  | .run options => options.run around

end ExprLang.Command
