import ExprLang.Expr.Parser
import ExprLang.Fault
import ExprLang.Token.Lexer

/-!
# Engine settings and compilation

An engine says how deep calls may nest, what is logged and whether printing works. Compiling a
source text gives its program, and a record of what the engine is asked to log.
-/

namespace ExprLang

/-- What is logged while programs are compiled and run (`DebugConfig`). -/
structure DebugFlags where
  /-- Every token. -/
  lex : Bool := false
  /-- Every tree. -/
  parse : Bool := false
  /-- The scope after each program. -/
  dump : Bool := false
  deriving DecidableEq, Repr

/-- An entry of the log. -/
inductive LogRecord where
  | token (text : String)
  | tree (pos : Position) (text : String)
  | scopeDump (scope : String)
  | frameDump (scope : String)
  deriving DecidableEq, Repr

/-- The settings that programs run under. -/
structure Engine where
  /-- The greatest number of nested calls: zero stands for the default, a negative number for none.
      -/
  maxDepth : Int := 0
  debug : DebugFlags := {}
  /-- Why printing fails, if it does. -/
  brokenSink : Option String := none
  deriving DecidableEq, Repr

namespace Engine

/-- The greatest number of nested calls if none is set (`DefaultMaxDepth`). -/
def defaultDepth : Nat := 4096

/-- The greatest number of nested calls, if there is one (`Engine.maxDepth`). -/
def depthLimit? (engine : Engine) : Option Nat :=
  if engine.maxDepth = 0 then some defaultDepth
  else if engine.maxDepth < 0 then none
  else some engine.maxDepth.toNat

end Engine

/-- The fault of a text that cannot be cut into tokens. -/
def Token.LexicalError.toFault : Token.LexicalError × Position → Fault
  | (.unterminatedComment, pos) => .atPos .unterminatedComment pos
  | (.unterminatedText, pos) => .atPos .unterminatedText pos
  | (.unexpectedCharacter c, pos) => .atPos (.unexpectedCharacter c) pos

/-- The fault of tokens that are no expression. Where they end too early, the last of them gives the
    place, but not if they end right after the opening of a list or of arguments. -/
def Expr.ParseError.toFault (ts : List Token) : Expr.ParseError → Fault
  | .ended =>
    match ts.getLast? with
    | some last => .atPos (.endOfInput (some last.lexeme)) last.pos
    | none => .of (.endOfInput none)
  | .endedAtOpening => .of (.endOfInput none)
  | .unexpected token => .atPos (.unexpectedToken token.lexeme) token.pos
  | .invalidTarget operator found =>
    .atPos (.invalidTarget operator.lexeme found.describe) operator.pos
  | .invalidCallee opening found => .atPos (.invalidCallee found.describe) opening.pos
  | .invalidKey key offset => .atPos (.invalidEscape offset) key.pos

namespace Program

/-- The program that tokens stand for. -/
def ofTokens (ts : List Token) : Except Fault Program :=
  match Expr.ofTokens ts with
  | .ok root => .ok ⟨root⟩
  | .error e => .error (e.toFault ts)

/-- The tokens of a source text (`Tokenize`). -/
def tokens (source : String) : Except Fault (List Token) :=
  match Token.tokenize source with
  | .ok ts => .ok ts
  | .error e => .error (Token.LexicalError.toFault e)

/-- The program that a source text stands for (`Compile`). -/
def ofSource (source : String) : Except Fault Program :=
  match tokens source with
  | .ok ts => ofTokens ts
  | .error f => .error f

end Program

namespace Engine

/-- What is logged about a source text: its tokens, and its tree if it has one. -/
def compileLog (engine : Engine) (source : String) : List LogRecord :=
  if engine.debug.lex || engine.debug.parse then
    match Program.tokens source with
    | .error _ => []
    | .ok ts =>
      (if engine.debug.lex then ts.map fun t => .token t.toText else [])
        ++
        (if engine.debug.parse then
          match Program.ofTokens ts with
          | .ok ⟨some root⟩ => [.tree root.pos root.describe]
          | _ => []
        else [])
  else []

end Engine

end ExprLang
