import ExprLang.Console
import ExprLang.Eval

/-!
# What a run of the command leaves behind

Programs run one after the other on one store. What they print goes to the output; faults and the
log go to the error stream. A program that does not end leaves nothing behind, and neither does the
run that it belongs to.
-/

namespace ExprLang

/-- A time of day as log lines show it. -/
def clockText (hour minute : Nat) : String :=
  let twelve := if hour % 12 = 0 then 12 else hour % 12
  toString twelve ++ ":" ++ (if minute < 10 then "0" else "") ++ toString minute
    ++ (if hour < 12 then "AM" else "PM")

/-- Whether a value of a log line has to be quoted. -/
def LogRecord.needsQuotes (s : String) : Bool :=
  s.toList.any fun c => c.toNat ≤ 0x20 || 0x7E < c.toNat || c = '"' || c = '\\'

/-- A key with its value on a log line. -/
def LogRecord.pair (key value : String) : String :=
  key ++ "=" ++ (if needsQuotes value then Text.quoted value else value)

/-- A line of the log at a time, as it goes to an error stream that is no terminal
    (`NewDebugLogger`). The form for a terminal, where the level and the keys are coloured, is left
    out. -/
def LogRecord.line (clock : String) (record : LogRecord) : String :=
  clock ++ " DBG "
    ++ (match record with
      | .token text => "lex " ++ pair "token" text
      | .tree pos text => "parse " ++ pair "pos" pos.toText ++ " " ++ pair "tree" text
      | .scopeDump scope => "scope dump " ++ pair "scope" scope
      | .frameDump scope => "frame dump " ++ pair "scope" scope)
    ++ "\n"

/-- A line about a fault of a program, which may stand in a file (`Context.LogErr`). -/
def Fault.complaint (file : Option String) (f : Fault) : String :=
  let place :=
    match file with
    | some path => " in " ++ path
    | none => ""
  Console.complaint f.reason.heading [f.toText ++ place]

namespace Command

/-- What has been written so far, and the store and the literal nodes that programs share. -/
structure Transcript where
  store : Store := {}
  nodes : Array Literal := #[]
  out : Text := ""
  err : String := ""

namespace Transcript

/-- Adds to the output. -/
def print (t : Transcript) (text : Text) : Transcript := { t with out := t.out ++ text }

/-- Adds to the error stream. -/
def complain (t : Transcript) (text : String) : Transcript := { t with err := t.err ++ text }

/-- Goes on after a computation. -/
def after (t : Transcript) (clock : String) (m : Machine) : Transcript :=
  { store := m.store
    nodes := m.nodes
    out := t.out ++ m.out
    err := t.err ++ String.join (m.log.toList.map (LogRecord.line clock)) }

/-- The machine that the next program begins with. -/
def machine (t : Transcript) : Machine := { store := t.store, nodes := t.nodes }

/-- Runs a program in a scope, unless it does not end (`Context.Exec`). To compare containers that
    hold themselves is a way of not ending: nothing in the program or after it runs any more. -/
def exec (t : Transcript) (clock : String) (engine : Engine) (scope : Nat) (source : String) :
    Option (Except Fault Value × Transcript) :=
  match engine.eval Engine.ampleFuel source scope t.machine with
  | .done v m => some (.ok v, t.after clock m)
  | .failed f m =>
    if f.cause = .endlessComparison then none else some (.error f, t.after clock m)
  | .outOfFuel => none

end Transcript

end Command

end ExprLang
