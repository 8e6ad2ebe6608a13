import ExprLang.Arity
import ExprLang.Position
import ExprLang.Text.Quoted
import ExprLang.Value

/-!
# Faults

A fault has a cause, the place where it arose, if one is known, and the calls it has left on its way
out. Its text tells the calls from the outermost to the innermost and then the cause.
-/

namespace ExprLang

/-- What sort of thing went wrong. -/
inductive Reason where
  /-- A text or data that cannot be understood. -/
  | malformed
  /-- An operation that cannot be carried out. -/
  | runtime
  /-- The surroundings refused. -/
  | system
  /-- A failure that the language knows nothing about. -/
  | foreign
  deriving DecidableEq, Repr

/-- What went wrong. -/
inductive Cause where
  -- texts
  | unterminatedComment
  | unterminatedText
  | unexpectedCharacter (c : Char)
  | unexpectedToken (lexeme : String)
  | endOfInput (last : Option String)
  | invalidTarget (operator description : String)
  | invalidCallee (description : String)
  | invalidEscape (offset : Nat)
  | invalidInteger (digits : String)
  | invalidDouble (lexeme : String)
  -- data
  | unsupportedData (type : String)
  | unsupportedNumber (number : String)
  | invalidJson
  | invalidCbor
  | unknownFormat (format : String)
  | bindingsNotObject (found : Value.Kind)
  -- calls
  | argumentCount (arity : Arity) (given : Nat)
  | notCallable (label : String) (found : Value.Kind)
  | lazyInvoked (name : String)
  | depthExceeded (limit : Nat)
  | unsupportedArgument (function : String) (found : Value.Kind)
  | iterationTarget (description : String)
  | notIterable (found : Value.Kind)
  | signatureKind (found : Value.Kind)
  | signatureCharacter (c : Char)
  -- places
  | unknownSymbol (name : Text)
  | indexKind (found : Value.Kind)
  | readOutside (index : Int64) (size : Nat)
  | writeOutside (index : Int64) (size : Nat)
  -- operators
  | unaryOperand (operator : String) (found : Value.Kind)
  | binaryOperands (operator : String) (left right : Value.Kind)
  | truthOperand (found : Value.Kind)
  | divisionByZero (left right : String)
  | modulusByZero (left right : String)
  | negativePowerOfZero (left right : String)
  | negativeShift (operator : String) (count : Int64)
  | endlessComparison
  -- encoding
  | selfReferential (found : Value.Kind)
  | notEncodable (found : Value.Kind)
  -- surroundings
  | printFailed (why : String)
  | unreadableProgram (why : String)
  | unopenedProgram (path why : String)
  -- settings and hosts
  | unreadableFile (path why : String)
  | unparsedFile (path : String)
  | unknownOutputMode (path : Option String) (mode : String)
  | symbolFileType (path ending : String)
  | depthNotInteger (given : String) (outOfRange : Bool)
  | host (message : String)
  deriving DecidableEq, Repr

namespace Cause

/-- The reason behind a cause. -/
def reason : Cause → Reason
  | .unterminatedComment | .unterminatedText | .unexpectedCharacter _ | .unexpectedToken _
  | .endOfInput _ | .invalidTarget .. | .invalidCallee _ | .invalidEscape _ | .invalidInteger _
  | .invalidDouble _
  | .unsupportedData _ | .unsupportedNumber _ | .invalidJson | .invalidCbor | .unknownFormat _
  | .bindingsNotObject _ | .argumentCount .. => .malformed
  | .notCallable .. | .lazyInvoked _ | .depthExceeded _ | .unsupportedArgument ..
  | .iterationTarget _ | .notIterable _ | .signatureKind _ | .signatureCharacter _
  | .unknownSymbol _ | .indexKind _ | .readOutside .. | .writeOutside ..
  | .unaryOperand .. | .binaryOperands .. | .truthOperand _ | .divisionByZero ..
  | .modulusByZero .. | .negativePowerOfZero .. | .negativeShift .. | .endlessComparison
  | .selfReferential _ | .notEncodable _ => .runtime
  | .printFailed _ | .unreadableProgram _ | .unopenedProgram .. => .system
  | .unreadableFile .. | .unparsedFile _ | .unknownOutputMode .. | .symbolFileType ..
  | .depthNotInteger .. | .host _ => .foreign

/-- The modes in which results are printed, as messages list them. -/
def outputModeList : String := "text, repr, json"

/-- The greatest number of arguments as messages write it. -/
def upperBound : Option Nat → String
  | none => "*"
  | some n => toString n

/-- The text of a cause (`Err.Message`). -/
def message : Cause → String
  | .unterminatedComment => "Unterminated comment"
  | .unterminatedText => "Unterminated string literal"
  | .unexpectedCharacter c => "Unexpected character '" ++ c.toString ++ "'"
  | .unexpectedToken lexeme => "Unexpected token `" ++ lexeme ++ "`"
  | .endOfInput none => "Unexpected end of input"
  | .endOfInput (some last) => "Unexpected end of input after `" ++ last ++ "`"
  | .invalidTarget operator description =>
    "Invalid target for `" ++ operator ++ "`: " ++ description
  | .invalidCallee description => "Invalid callee: " ++ description
  | .invalidEscape offset =>
    "Invalid backslash sequence in string at position " ++ toString offset
  | .invalidInteger digits => "Invalid integer literal `" ++ digits ++ "`"
  | .invalidDouble lexeme => "Invalid double literal `" ++ lexeme ++ "`"
  | .unsupportedData type => "Unsupported data type " ++ type
  | .unsupportedNumber number => "Unsupported number literal " ++ number
  | .invalidJson => "Invalid JSON"
  | .invalidCbor => "Invalid CBOR"
  | .unknownFormat format => "Unknown bindings format " ++ Text.quoted format
  | .bindingsNotObject found => "Bindings must be an OBJECT, got (" ++ found.title ++ ")"
  | .argumentCount arity given =>
    "Invalid argument count; expected [" ++ toString arity.min ++ ", " ++ upperBound arity.max
      ++ "], got " ++ toString given
  | .notCallable label found => "`" ++ label ++ "` is not callable: (" ++ found.title ++ ")"
  | .lazyInvoked name =>
    "`" ++ name ++ "` takes unevaluated arguments and cannot be invoked with values"
  | .depthExceeded limit => "Maximum call depth (" ++ toString limit ++ ") exceeded"
  | .unsupportedArgument function found =>
    "Unsupported argument to `" ++ function ++ "()`: (" ++ found.title ++ ")"
  | .iterationTarget description =>
    "Argument 1 to `FOREACH` must be a variable, got " ++ description
  | .notIterable found =>
    "Argument 2 to `FOREACH` must be an iterable, got (" ++ found.title ++ ")"
  | .signatureKind found => "Function signature must be STRING, got (" ++ found.title ++ ")"
  | .signatureCharacter c => "'" ++ c.toString ++ "' is an invalid function signature"
  | .unknownSymbol name => "`" ++ name.mended ++ "` is not a valid symbol"
  | .indexKind found => "Array index must be INTEGER, got (" ++ found.title ++ ")"
  | .readOutside index size =>
    "Array index `" ++ toString index.toInt ++ "` out of range, expected < " ++ toString size
  | .writeOutside index size =>
    "Array index `" ++ toString index.toInt ++ "` out of range, expected <= " ++ toString size
  | .unaryOperand operator found =>
    "Unsupported operand type for `" ++ operator ++ "`: (" ++ found.title ++ ")"
  | .binaryOperands operator left right =>
    "Unsupported operand type(s) for `" ++ operator ++ "`: (" ++ left.title ++ "," ++ right.title
      ++ ")"
  | .truthOperand found => "Unsupported operand type for truth test: (" ++ found.title ++ ")"
  | .divisionByZero left right => "Division by zero: (" ++ left ++ " / " ++ right ++ ")"
  | .modulusByZero left right => "Modulus by zero: (" ++ left ++ " % " ++ right ++ ")"
  | .negativePowerOfZero left right =>
    "Negative power of zero: (" ++ left ++ " ** " ++ right ++ ")"
  | .negativeShift operator count =>
    "Invalid attempt to shift `" ++ operator ++ "` by a negative amount: " ++ toString count.toInt
  | .endlessComparison => "Comparison of self-referential values does not end"
  | .selfReferential found =>
    "Cannot encode self-referential value of type (" ++ found.title ++ ")"
  | .notEncodable found => "Cannot encode value of type (" ++ found.title ++ ")"
  | .printFailed why => "PRINT could not write output: " ++ why
  | .unreadableProgram why => "could not read program: " ++ why
  | .unopenedProgram path why => "could not open " ++ path ++ " for execution:\n\t-> " ++ why
  | .unreadableFile path why => "cannot read " ++ path ++ ": " ++ why
  | .unparsedFile path => "parse error in " ++ path
  | .unknownOutputMode path mode =>
    (match path with
      | none => ""
      | some path => path ++ ": ")
      ++ "unknown output mode " ++ Text.quoted mode ++ ", expected one of " ++ outputModeList
  | .symbolFileType path ending =>
    path ++ ": unsupported symbol file type " ++ Text.quoted ending
  | .depthNotInteger given outOfRange =>
    "--max-depth must be an integer: key: \"--max-depth\" failed type conversion: "
      ++ "strconv.Atoi: parsing " ++ Text.quoted given ++ ": "
      ++ (if outOfRange then "value out of range" else "invalid syntax")
  | .host message => message

end Cause

/-- A call that a fault has left: its source text and its place. -/
structure CallSite where
  text : String
  pos : Position
  deriving DecidableEq, Repr

/-- A failure (`Err`). The calls it has left stand from the outermost to the innermost. -/
structure Fault where
  cause : Cause
  pos : Option Position := none
  calls : List CallSite := []
  deriving DecidableEq, Repr

namespace Fault

/-- A fault whose place is not known yet (`syntaxErrorf`, `runtimeErrorf`). -/
def of (cause : Cause) : Fault := { cause }

/-- A fault at a place. -/
def atPos (cause : Cause) (pos : Position) : Fault := { cause, pos := some pos }

/-- The reason of a fault (`Err.Reason`). Outside of a call, what was not malformed is a matter of
    running it. -/
def reason (f : Fault) : Reason :=
  match f.calls with
  | [] => f.cause.reason
  | _ :: _ => if f.cause.reason = .malformed then .malformed else .runtime

/-- The place of a fault (`Err.Position`): of the outermost call it has left, or else of its cause.
    -/
def place (f : Fault) : Option Position :=
  match f.calls with
  | [] => f.pos
  | site :: _ => some site.pos

/-- Gives a place to a fault that has none (`positioned`). -/
def located (f : Fault) (pos : Position) : Fault :=
  match f.place with
  | none => { f with pos := some pos }
  | some _ => f

/-- A fault that leaves one more call (`CallNode.wrap`). -/
def leaving (f : Fault) (site : CallSite) : Fault :=
  { f with calls := site :: f.calls }

/-- A text with the place in front of it. -/
def withPlace (pos : Option Position) (text : String) : String :=
  match pos with
  | none => text
  | some p => "[line " ++ toString p.line ++ ", col " ++ toString p.col ++ "] " ++ text

/-- What the sort of a fault is called in the texts of the calls it leaves. -/
def label (f : Fault) : String :=
  if f.cause.reason = .malformed then "Syntax" else "Runtime"

/-- The text of a fault, with its place in front (`Err.Error`). -/
def toText (f : Fault) : String :=
  f.calls.foldr
    (fun site inner =>
      withPlace (some site.pos)
        (f.label ++ " error while executing `" ++ site.text ++ "`:\n\t" ++ inner))
    (withPlace f.pos f.cause.message)

end Fault

end ExprLang
