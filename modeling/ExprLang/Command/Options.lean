import ExprLang.Config

/-!
# The arguments of the command

Options have a long name, which may be shortened as long as it stays unique, and some have a letter
as well. Letters may be put together after one dash. Everything else is a file, and so is all that
follows two dashes.
-/

namespace ExprLang.Command

/-- The part of the help text that shows the forms of a call. -/
def usage : String :=
  "\n".intercalate
    ["Usage:",
     "  liteexpr [options] [FILE...]",
     "  liteexpr -h | --help",
     "  liteexpr --version"]

/-- The help text (`usage`). -/
def help : String :=
  "\n".intercalate
    ["liteexpr is a small expression language for embedding in host programs.",
     "",
     usage,
     "",
     "Options:",
     "  -e, --eval=EXPR       Evaluate EXPR and print its result.",
     "  -p, --print           Print the result of each file or of stdin.",
     "  -i, --repl            Run as an interactive REPL.",
     "  -s, --symbols=PATH    Preload bindings from a .json, .toml or .cbor file.",
     "  -c, --config=PATH     Read settings from a TOML file.",
     "  -o, --output=MODE     Print results as text, repr or json.",
     "  --max-depth=N         Bound nested calls; negative removes the bound.",
     "  --verbose             Log all interpreter debug information.",
     "  --debug-lex           Log lexer output.",
     "  --debug-parse         Log parser output.",
     "  --dump                Dump the root scope after each evaluation.",
     "  -h, --help            Print this help message and exit.",
     "  --version             Print the version string and exit.",
     "",
     "By default liteexpr interprets stdin, or starts a REPL when stdin is a",
     "terminal. All files of one run share a single root scope:",
     "  liteexpr defs.le main.le",
     "  liteexpr -s grades.json -e 'grades.alice'"]

/-- The name and version of the command (`Version`). -/
def version : String := "liteexpr v0.2.0"

/-- The names of an option, and whether it takes an argument. -/
structure Switch where
  letter : Option Char
  long : String
  takesArgument : Bool
  deriving DecidableEq, Repr

/-- The options of the command. -/
def switches : List Switch :=
  [⟨some 'e', "--eval", true⟩, ⟨some 'p', "--print", false⟩, ⟨some 'i', "--repl", false⟩,
   ⟨some 's', "--symbols", true⟩, ⟨some 'c', "--config", true⟩, ⟨some 'o', "--output", true⟩,
   ⟨none, "--max-depth", true⟩, ⟨none, "--verbose", false⟩, ⟨none, "--debug-lex", false⟩,
   ⟨none, "--debug-parse", false⟩, ⟨none, "--dump", false⟩, ⟨some 'h', "--help", false⟩,
   ⟨none, "--version", false⟩]

/-- An argument that has been told apart. -/
inductive Given where
  | file (path : String)
  | switch (long : String) (argument : Option String)
  /-- An option that the command does not have. -/
  | unknown
  deriving DecidableEq, Repr

/-- Arguments that cannot be told apart, with what is said about them. -/
inductive Misuse where
  | missingArgument (name : String)
  | needlessArgument (name : String)
  | ambiguous (name : String) (candidates : List String)
  /-- Options that do not go together. -/
  | mismatch
  deriving DecidableEq, Repr

/-- What is said about a misuse before the usage, if anything. -/
def Misuse.message : Misuse → Option String
  | .missingArgument name => some (name ++ " requires argument")
  | .needlessArgument name => some (name ++ " must not have an argument")
  | .ambiguous name candidates =>
    some (name ++ " is not a unique prefix: " ++ ", ".intercalate candidates ++ "?")
  | .mismatch => none

/-- The argument of an option in the next argument of the command. Two dashes are none. -/
def nextArgument? : List String → Option String
  | [] => none
  | next :: _ => if next = "--" then none else some next

/-- What reading an option gives: what was found, the options known from then on, and whether the
    next argument was used. -/
structure Found where
  given : List Given
  known : List Switch
  usedNext : Bool

/-- What an option is to the command. -/
def Switch.given (s : Switch) (argument : Option String) : Given :=
  if switches.contains s then .switch s.long argument else .unknown

/-- Reads an option by its long name. An option that the command does not have is known from then
    on. -/
def readLong (known : List Switch) (token : String) (rest : List String) : Except Misuse Found :=
  let long := String.ofList (token.toList.takeWhile (· ≠ '='))
  let argument :=
    match token.toList.dropWhile (· ≠ '=') with
    | [] => none
    | _ :: written => some (String.ofList written)
  let exact := known.filter fun s => s.long = long
  let similar :=
    if exact.isEmpty then known.filter fun s => long.toList.isPrefixOf s.long.toList else exact
  match similar with
  | [] => .ok ⟨[.unknown], known ++ [⟨none, long, argument.isSome⟩], false⟩
  | [s] =>
    match s.takesArgument, argument with
    | false, none => .ok ⟨[s.given none], known, false⟩
    | false, some _ => .error (.needlessArgument s.long)
    | true, some _ => .ok ⟨[s.given argument], known, false⟩
    | true, none =>
      match nextArgument? rest with
      | some next => .ok ⟨[s.given (some next)], known, true⟩
      | none => .error (.missingArgument s.long)
  | _ => .error (.ambiguous long (similar.map Switch.long))

/-- Reads options by their letters. What follows the letter of an option that takes an argument is
    its argument. -/
def readLetters (known : List Switch) (rest : List String) : List Char → Except Misuse Found
  | [] => .ok ⟨[], known, false⟩
  | c :: cs =>
    match known.find? fun s => s.letter = some c with
    | none =>
      match readLetters known rest cs with
      | .ok found => .ok { found with given := .unknown :: found.given }
      | .error misuse => .error misuse
    | some s =>
      if s.takesArgument then
        if cs.isEmpty then
          match nextArgument? rest with
          | some next => .ok ⟨[s.given (some next)], known, true⟩
          | none => .error (.missingArgument (String.ofList ['-', c]))
        else .ok ⟨[s.given (some (String.ofList cs))], known, false⟩
      else
        match readLetters known rest cs with
        | .ok found => .ok { found with given := s.given none :: found.given }
        | .error misuse => .error misuse

/-- Tells the arguments of the command apart. -/
def split (known : List Switch) : List String → Except Misuse (List Given)
  | [] => .ok []
  | token :: rest =>
    if token = "--" then .ok (.file token :: rest.map .file)
    else if token.startsWith "-" ∧ token ≠ "-" then
      let found :=
        if token.startsWith "--" then readLong known token rest
        else readLetters known rest (token.toList.dropWhile (· = '-'))
      match found with
      | .error misuse => .error misuse
      | .ok found =>
        match split found.known (if found.usedNext then rest.tail else rest) with
        | .ok more => .ok (found.given ++ more)
        | .error misuse => .error misuse
    else
      match split known rest with
      | .ok more => .ok (.file token :: more)
      | .error misuse => .error misuse
termination_by args => args.length
decreasing_by
  · split
    · simp only [List.length_tail, List.length_cons]; omega
    · simp only [List.length_cons]; omega
  · simp only [List.length_cons]; omega

/-- What the command is asked to do (`options`). -/
structure Options where
  files : List String := []
  eval : Option String := none
  print : Bool := false
  repl : Bool := false
  symbols : Option String := none
  config : Option String := none
  output : Option OutputMode := none
  maxDepth : Option Int := none
  verbose : Bool := false
  debugLex : Bool := false
  debugParse : Bool := false
  dump : Bool := false
  deriving DecidableEq, Repr

/-- How the arguments of the command are understood. -/
inductive Request where
  | run (options : Options)
  /-- A text to be shown instead of running. -/
  | inform (text : String)
  | misused (misuse : Misuse)
  | refused (cause : Cause)
  deriving DecidableEq, Repr

/-- Whether an option is among the given ones. -/
def isGiven (given : List Given) (long : String) : Bool :=
  given.any fun g =>
    match g with
    | .switch name _ => name = long
    | _ => false

/-- The argument that an option was given. -/
def argument? (given : List Given) (long : String) : Option String :=
  given.findSome? fun g =>
    match g with
    | .switch name argument => if name = long then argument else none
    | _ => none

/-- The argument that an option was given, unless it is empty. -/
def nonempty? (given : List Given) (long : String) : Option String :=
  (argument? given long).filter (· ≠ "")

/-- Whether all given options are known, and none is given twice. -/
def matched : List Given → Bool
  | [] => true
  | .file _ :: rest => matched rest
  | .unknown :: _ => false
  | .switch long _ :: rest => !isGiven rest long && matched rest

/-- The largest number that is still read digit by digit. -/
def digitsLimit : Nat := UInt64.size - 1

/-- Reads the digits of a number; the failure says whether it was too large, and not misspelt. -/
def boundedDigits (n : Nat) : List Char → Except Bool Nat
  | [] => .ok n
  | c :: cs =>
    match Number.decimalDigit? c with
    | none => .error false
    | some d => if digitsLimit < 10 * n + d then .error true else boundedDigits (10 * n + d) cs

/-- A depth as it is written: a whole number that fits into a word. -/
def depth (written : String) : Except Cause Int :=
  let (negative, digits) := Number.splitSign written.toList
  if digits.isEmpty then .error (.depthNotInteger written false)
  else
    match boundedDigits 0 digits with
    | .error tooLarge => .error (.depthNotInteger written tooLarge)
    | .ok n =>
      let value := Number.signed negative n
      if Toml.fitsWord value then .ok value else .error (.depthNotInteger written true)

/-- The depth that the options ask for. -/
def depthGiven (given : List Given) : Except Cause (Option Int) :=
  match argument? given "--max-depth" with
  | none => .ok none
  | some written =>
    match depth written with
    | .ok n => .ok (some n)
    | .error cause => .error cause

/-- The options that have been given. -/
def Options.ofGiven (given : List Given) : Except Cause Options := do
  let maxDepth ← depthGiven given
  let output ← OutputMode.ofSetting none ((argument? given "--output").getD "")
  return {
    files := given.filterMap fun g =>
      match g with
      | .file path => some path
      | _ => none
    eval := nonempty? given "--eval"
    print := isGiven given "--print"
    repl := isGiven given "--repl"
    symbols := nonempty? given "--symbols"
    config := nonempty? given "--config"
    output
    maxDepth
    verbose := isGiven given "--verbose"
    debugLex := isGiven given "--debug-lex"
    debugParse := isGiven given "--debug-parse"
    dump := isGiven given "--dump" }

/-- What the arguments of the command ask for (`parseOptions`). Help comes before the version, and
    both before everything that can be wrong with arguments once they are told apart. -/
def request (args : List String) : Request :=
  match split switches args with
  | .error misuse => .misused misuse
  | .ok given =>
    if isGiven given "--help" then .inform help
    else if isGiven given "--version" then .inform version
    else if matched given then
      match Options.ofGiven given with
      | .ok options => .run options
      | .error cause => .refused cause
    else .misused .mismatch

/-- The engine that options and settings ask for (`options.engine`). -/
def Options.engine (o : Options) (config : Config) : Engine :=
  { maxDepth := o.maxDepth.getD config.maxDepth
    debug :=
      { lex := o.debugLex || o.verbose || config.debug.lex
        parse := o.debugParse || o.verbose || config.debug.parse
        dump := o.dump || o.verbose || config.debug.dump } }

/-- The way to write results that options and settings ask for (`options.outputMode`). -/
def Options.outputMode (o : Options) (config : Config) (fallback : OutputMode) : OutputMode :=
  o.output.getD (config.output.getD fallback)

end ExprLang.Command
