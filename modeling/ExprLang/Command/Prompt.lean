import ExprLang.Command.Transcript
import ExprLang.OutputMode
import ExprLang.Text.Blank

/-!
# The prompt

Lines are read and run one by one, in one scope. Results and faults are shown, and neither ends the
session. The lines are kept for the next session.
-/

namespace ExprLang.Command

/-- What stands before each line that is read. -/
def promptSign : String := "> "

/-- The name of the file that keeps the lines, in the home directory. -/
def historyName : String := ".liteexpr_history"

/-- The greatest number of lines that are kept. -/
def historyLimit : Nat := 1000

/-- The greatest number of bytes of a line; longer lines are read in parts. -/
def lineLimit : Nat := 4096

/-- The bytes up to the end of the line, and what follows the end if there is one. -/
def splitLine : List UInt8 → List UInt8 × Option (List UInt8)
  | [] => ([], none)
  | b :: bs =>
    if b = 0x0A then ([], some bs)
    else
      let (line, rest) := splitLine bs
      (b :: line, rest)

/-- The part of a line that is read at once: a carriage return is not its last byte. -/
def partLength (line : List UInt8) : Nat :=
  if (line.take lineLimit).getLast? = some 0x0D then lineLimit - 1 else lineLimit

/-- A line without a carriage return at its end. -/
def withoutReturn (line : List UInt8) : List UInt8 :=
  if line.getLast? = some 0x0D then line.dropLast else line

/-- The lines of an input of at most so many bytes. -/
def linesWithin : Nat → List UInt8 → List (List UInt8)
  | 0, _ => []
  | _, [] => []
  | fuel + 1, bs =>
    let (line, rest) := splitLine bs
    if lineLimit ≤ line.length then
      let n := partLength line
      bs.take n :: linesWithin fuel (bs.drop n)
    else
      match rest with
      | none => [line]
      | some rest => withoutReturn line :: linesWithin fuel rest

/-- The lines of an input. -/
def lines (input : List UInt8) : List (List UInt8) := linesWithin (input.length + 1) input

/-- Adds a line to the history unless it is the same as the last one. The history stands latest line
    first. -/
def remember (line : String) (history : List String) : List String :=
  if history.head? = some line then history else (line :: history).take historyLimit

/-- The lines of a history file, latest first. What follows a line that is too long, or is no text,
    is not read. -/
def readHistory (document : List UInt8) : List String :=
  let whole := (splitAtLong (document.length + 1) document).map fun line => Text.toString? ⟨line⟩
  ((whole.takeWhile Option.isSome).filterMap id).reverse.take historyLimit
where
  /-- The lines before the first one that is too long. -/
  splitAtLong : Nat → List UInt8 → List (List UInt8)
    | 0, _ => []
    | _, [] => []
    | fuel + 1, bs =>
      let (line, rest) := splitLine bs
      if lineLimit ≤ line.length then []
      else
        match rest with
        | none => [line]
        | some rest => withoutReturn line :: splitAtLong fuel rest

/-- The text of a history file. -/
def writeHistory (history : List String) : String :=
  String.join (history.reverse.map (· ++ "\n"))

/-- What a session at the prompt runs under. -/
structure Session where
  engine : Engine
  scope : Nat
  mode : OutputMode
  clock : String

/-- The state of a session at the prompt. -/
structure SessionState where
  transcript : Transcript
  history : List String

/-- Runs a line and shows its result. -/
def Session.respond (s : Session) (t : Transcript) (line : String) : Option Transcript := do
  match ← t.exec s.clock s.engine s.scope line with
  | (.error f, t) => return t.complain (f.complaint none)
  | (.ok v, t) =>
    match s.mode.format t.store v with
    | .ok text => return t.print (Console.note [text])
    | .error cause =>
      return t.complain (Console.complaint Reason.runtime.heading [cause.message])

/-- Takes a line. Blank lines do nothing. -/
def Session.step (s : Session) (st : SessionState) (line : String) : Option SessionState := do
  if Text.allBlank line then return st
  else
    let transcript ← s.respond st.transcript line
    return { transcript, history := remember line st.history }

/-- Shows the sign that a line is waited for. -/
def SessionState.showSign (st : SessionState) : SessionState :=
  { st with transcript := st.transcript.print promptSign }

/-- A whole session (`runRepl`): the sign is shown before each line, and once more before the end.
    -/
def Session.run (s : Session) (st : SessionState) (input : List (List UInt8)) :
    Option SessionState := do
  let last ← input.foldlM (fun st line => s.step st.showSign (Text.mended ⟨line⟩)) st
  return last.showSign

end ExprLang.Command
