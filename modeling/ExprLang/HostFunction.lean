import ExprLang.Expr
import ExprLang.Fault

/-!
# Host functions

A host may supply functions of its own. A `Native` only computes. Other functions may take part in
the evaluation that calls them: what they do is told by a `Script`, which ends with a value or a
fault, or asks for something and goes on with what the host sees of the answer.

The host has no cells of its own. It sees scalars, and of a reference only the kind; a value or a
slot that it was given is named by its place among those given so far.
-/

namespace ExprLang

/-- A value that refers to no cell. -/
inductive Scalar where
  | int (n : Int64)
  | double (x : Double)
  | text (t : Text)
  deriving DecidableEq, Repr

/-- The value of a scalar. -/
def Scalar.toValue : Scalar → Value
  | .int n => .int n
  | .double x => .double x
  | .text t => .text t

/-- What the host sees of a value: a scalar itself, and of a reference only its kind. -/
inductive Argument where
  | scalar (x : Scalar)
  | reference (kind : Value.Kind)
  deriving DecidableEq, Repr

/-- A value as the host sees it. -/
def Argument.ofValue : Value → Argument
  | .int n => .scalar (.int n)
  | .double x => .scalar (.double x)
  | .text t => .scalar (.text t)
  | v => .reference v.kind

/-- A function supplied by the host: it computes a scalar from what it sees of its arguments, or
    fails. -/
structure Native where
  name : String
  arity : Arity
  run : List Argument → Except Fault Scalar

/-- What the host sees of an argument expression: its place and its description
    (`Node.Position`, `Node.String`). -/
structure Shown where
  pos : Position
  text : String
  deriving DecidableEq, Repr

/-- An expression as the host sees it. -/
def Shown.ofExpr (e : Expr) : Shown := ⟨e.pos, e.describe⟩

/-- A value that a script names: one that was given, by its place, or a scalar. -/
inductive Operand where
  | given (place : Nat)
  | scalar (x : Scalar)
  deriving DecidableEq, Repr

/-- What a script may ask for. -/
inductive Request where
  /-- The scope of the call (`Evaluator.Scope`). -/
  | scope
  /-- The value of an argument expression (`Evaluator.Visit`). -/
  | visit (arg : Nat)
  /-- The slot of an argument expression (`Evaluator.Resolve`). -/
  | resolve (arg : Nat)
  /-- The value of a slot (`Lvalue.Read`). -/
  | read (slot : Nat)
  /-- A value, once it is written to a slot (`Lvalue.Write`). -/
  | write (slot : Nat) (value : Operand)
  /-- Whether a value is true (`Truthy`). -/
  | truth (value : Operand)
  /-- The elements of an array (`ArrayValue.Elements`). -/
  | elements (array : Nat)
  /-- A new array (`NewArray`). -/
  | array (elems : List Operand)
  /-- The result of a function (`FunctionValue.Invoke`). -/
  | invoke (function : Nat) (args : List Operand)
  deriving DecidableEq, Repr

/-- What a host function does once it has seen its arguments. An answer is a list of values, of
    which the host sees what it can, or the reason why a slot cannot be read. Any other fault ends
    the function. -/
inductive Script where
  /-- Ends with a value. -/
  | give (value : Operand)
  /-- Ends with a fault. -/
  | fail (fault : Fault)
  /-- Asks for something and goes on. -/
  | ask (request : Request) (next : Except Cause (List Argument) → Script)

/-- A host function that gets the values of its arguments (`NewFunction`). -/
structure EagerFunction where
  name : String
  arity : Arity
  run : List Argument → Script

/-- A host function that gets its argument expressions (`NewLazyFunction`). -/
structure LazyFunction where
  name : String
  arity : Arity
  run : List Shown → Script

end ExprLang
