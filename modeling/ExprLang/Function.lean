import ExprLang.HostFunction

/-!
# Functions

A function is a primitive, which gets the values of its arguments; a form, which gets the argument
expressions themselves; or a closure, made by a program.
-/

namespace ExprLang

/-- Functions that get the values of their arguments. -/
inductive Primitive where
  /-- Makes a number whole (`liteCeil`, `liteFloor`, `liteRound`). -/
  | whole (mode : Double.Rounding)
  /-- The square root (`liteSqrt`). -/
  | sqrt
  /-- The size of a text or container (`liteLen`). -/
  | len
  /-- Writes a line (`litePrint`). -/
  | print
  /-- Runs a text as a program (`liteEval`). -/
  | eval
  /-- Computes with the host's help. -/
  | native (f : Native)
  /-- Does what the host tells. -/
  | eager (f : EagerFunction)
  /-- Clears the screen. -/
  | clear
  /-- Shows the scope of the call. -/
  | dump

/-- Functions that get their argument expressions. -/
inductive Form where
  /-- The first branch whose condition holds (`liteIf`). -/
  | choose
  /-- A loop with a condition (`liteWhile`). -/
  | loopWhile
  /-- A loop with a start, a condition and a step (`liteFor`). -/
  | loopFor
  /-- A loop over the elements or members of a container (`liteForeach`). -/
  | loopEach
  /-- A new closure (`liteFunction`). -/
  | define
  /-- Does what the host tells. -/
  | lazy (f : LazyFunction)

/-- A callable (`FunctionValue`). A closure keeps the scope it was made in. -/
inductive Function where
  | primitive (op : Primitive)
  | form (op : Form)
  | closure (arity : Arity) (body : Expr) (scope : Nat)

namespace Primitive

/-- The name under which a primitive is known. -/
def name : Primitive → String
  | .whole .up => "CEIL"
  | .whole .down => "FLOOR"
  | .whole .nearest => "ROUND"
  | .sqrt => "SQRT"
  | .len => "LEN"
  | .print => "PRINT"
  | .eval => "EVAL"
  | .native f => f.name
  | .eager f => f.name
  | .clear => "CLEAR"
  | .dump => "DUMP"

/-- How many arguments a primitive takes. -/
def arity : Primitive → Arity
  | .whole _ | .sqrt | .len | .eval => .exactly 1
  | .print => .atLeast 0
  | .native f => f.arity
  | .eager f => f.arity
  | .clear | .dump => .exactly 0

end Primitive

namespace Form

/-- The name under which a form is known. -/
def name : Form → String
  | .choose => "IF"
  | .loopWhile => "WHILE"
  | .loopFor => "FOR"
  | .loopEach => "FOREACH"
  | .define => "FUNCTION"
  | .lazy f => f.name

/-- How many arguments a form takes. -/
def arity : Form → Arity
  | .choose => .atLeast 2
  | .loopWhile | .define => .exactly 2
  | .loopFor => .exactly 4
  | .loopEach => .exactly 3
  | .lazy f => f.arity

end Form

namespace Function

/-- The name under which a function is known; closures share one (`FunctionValue.Name`). -/
def name : Function → String
  | .primitive op => op.name
  | .form op => op.name
  | .closure .. => "<Function>"

/-- How many arguments a function takes (`FunctionValue.Arity`). -/
def arity : Function → Arity
  | .primitive op => op.arity
  | .form op => op.arity
  | .closure arity _ _ => arity

/-- Whether a function gets its arguments unevaluated (`FunctionValue.IsLazy`). -/
def isLazy : Function → Bool
  | .form _ => true
  | _ => false

/-- The functions that every root scope begins with, in the order of their names there
    (`loadBuiltins`). -/
def builtins : List (Text × Function) :=
  [Function.primitive (.whole .up), .primitive (.whole .down), .primitive (.whole .nearest),
   .primitive .sqrt, .primitive .len, .primitive .print, .primitive .eval,
   .form .choose, .form .loopWhile, .form .loopFor, .form .loopEach, .form .define].map
    fun f => (f.name, f)

/-- Functions that are bound at the prompt only (`runRepl`). -/
def prompt : List (Text × Function) :=
  [("CLEAR", .primitive .clear), ("DUMP", .primitive .dump)]

end Function

end ExprLang
