import ExprLang.Fault

/-!
# Console messages

Results at the prompt are green and faults are red.
-/

namespace ExprLang.Console

/-- Ends a colour. -/
def reset : String := "\x1b[0;0m"
/-- Begins green. -/
def green : String := "\x1b[32;22m"
/-- Begins red. -/
def red : String := "\x1b[31;22m"
/-- Begins bold red. -/
def boldRed : String := "\x1b[31;1m"
/-- Empties the screen and goes to its top left corner. -/
def clearScreen : String := "\x1b[2J\x1b[H"

/-- A line at the prompt (`LogInteractive`). -/
def note (parts : List Text) : Text :=
  green ++ Text.join " " parts ++ reset ++ "\n"

/-- A line about a fault, headed by what sort of fault it is (`LogSafeErr`). -/
def complaint (heading : String) (parts : List String) : String :=
  boldRed ++ heading ++ ": " ++ red ++ " ".intercalate parts ++ reset ++ "\n"

end ExprLang.Console

namespace ExprLang.Reason

/-- What a reason is called on the console. -/
def heading : Reason → String
  | .malformed => "syntax error"
  | .runtime => "runtime error"
  | .system => "system error"
  | .foreign => "error"

/-- The exit status that a reason stands for. -/
def exitCode : Reason → Nat
  | .malformed => 1
  | .runtime => 2
  | .system => 40
  | .foreign => 0

/-- All reasons. -/
def all : List Reason := [.malformed, .runtime, .system, .foreign]

end ExprLang.Reason

namespace ExprLang.Console

/-- The number of a broken promise of the program itself, which is no reason of a fault. -/
def brokenPromise : Int := 100

/-- The heading of a reason by its number; numbers without a meaning have that of a foreign
    failure (`reasonName`). -/
def heading (number : Int) : String :=
  if number = brokenPromise then "invariant violation"
  else
    match Reason.all.find? fun r => (r.exitCode : Int) = number with
    | some reason => reason.heading
    | none => Reason.foreign.heading

end ExprLang.Console
