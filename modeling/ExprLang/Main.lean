import ExprLang.Command.Run
import Std.Time

/-!
# The command line

Reads the files that the arguments ask for, runs the command and writes what it leaves behind.
-/

namespace ExprLang.Command

/-- Reads a file. -/
def readFile (path : String) : IO (Except FileError (List UInt8)) := do
  try
    let content ← IO.FS.readBinFile path
    return .ok content.data.toList
  catch e =>
    match e with
    | .inappropriateType _ code _ =>
      return .error (if code = 21 then .isDirectory else .notDirectory)
    | _ => return .error .missing

/-- Finds out about the surroundings that options need. -/
def findSurroundings (o : Options) : IO Surroundings := do
  let directory := toString (← IO.currentDir)
  let home := (← IO.getEnv "HOME").getD ""
  let stdin ← IO.getStdin
  let terminal ← stdin.isTty
  let files ← (o.paths directory home).mapM fun path => return (path, ← readFile path)
  let input ← if o.readsInput terminal then stdin.readBinToEnd else pure ByteArray.empty
  let now ← Std.Time.PlainTime.now
  return {
    read := fun path => (files.lookup path).getD (.error .missing)
    directory, home, terminal
    input := input.data.toList
    clock := clockText now.hour.val.toNat now.minute.val.toNat }

/-- Writes what has been added to a transcript, and empties it. -/
def showTranscript (t : Transcript) : IO Transcript := do
  let stdout ← IO.getStdout
  stdout.write ⟨t.out.bytes.toArray⟩
  stdout.flush
  IO.eprint t.err
  return { t with out := "", err := "" }

/-- Reads lines at the prompt until the input ends, or a line does not. -/
partial def converse (session : Session) (st : SessionState) : IO (Option SessionState) := do
  let t ← showTranscript st.showSign.transcript
  let line ← (← IO.getStdin).getLine
  if line.isEmpty then return some { st with transcript := t }
  let line := String.ofList (line.toList.filter fun c => c ≠ '\n' && c ≠ '\r')
  match session.step { st with transcript := t } line with
  | some st => converse session st
  | none => return none

/-- The status of a command that had to be given up. -/
def endless : IO UInt32 := do
  IO.eprintln "endless evaluation"
  return 2

/-- Writes how the command has ended, if it has. -/
def showEnding : Option Ending → IO UInt32
  | none => endless
  | some ending => do
    (← IO.getStdout).write ⟨ending.out.bytes.toArray⟩
    IO.eprint ending.err
    return UInt32.ofNat ending.exit

/-- Runs a session at the prompt. -/
def runSession (o : Options) (around : Surroundings) : IO UInt32 := do
  match o.start around with
  | .error ending => showEnding ending
  | .ok start =>
    let session := o.session around start
    match ← converse session (openPrompt around session.scope start.transcript) with
    | none => endless
    | some last =>
      if let some history := closePrompt around last then
        IO.FS.writeFile (historyPath around) history
      return 0

end ExprLang.Command

open ExprLang Command in
/-- Runs the command. -/
def main (args : List String) : IO UInt32 := do
  match request args with
  | .run o =>
    let around ← findSurroundings o
    if o.atPrompt around.terminal then runSession o around else showEnding (Command.run around args)
  | _ => showEnding (Command.run ⟨fun _ => .error .missing, "", "", [], false, ""⟩ args)
