import ExprLang.Eval.Monad
import ExprLang.Number.Integer
import ExprLang.Text.Escape

/-!
# Literals

A literal stands for the same value whenever it is met, so a run builds the value at the first visit
of the literal's node and remembers it under the number of the node.
-/

namespace ExprLang

/-- The value of a whole number by its digits, of which there may be any number
    (`parseIntLiteral`). -/
def Literal.wholeNumber (base : Nat) (digit? : Char → Option Nat) (digits : List Char) :
    Except Cause Value :=
  match digits, Number.digitsValue? base digit? 0 digits with
  | _ :: _, some n => .ok (.int (Number.wrapBig n))
  | _, _ => .error (.invalidInteger (String.ofList digits))

/-- The value that a literal stands for. -/
def Literal.value (l : Literal) : Except Cause Value :=
  match l.kind with
  | .int => wholeNumber 10 Number.decimalDigit? l.lexeme.toList
  | .hex => wholeNumber 16 Number.hexadecimalDigit? (l.lexeme.toList.drop 2)
  | .double =>
    match Double.read? l.lexeme with
    | some x => .ok (.double x)
    | none => .error (.invalidDouble l.lexeme)
  | .text =>
    match Text.decode l.lexeme with
    | .ok s => .ok (.text s)
    | .error offset => .error (.invalidEscape offset)

namespace Eval

/-- The value of a literal node: what is remembered under the number of the node, or else what is
    built from the literal, which is then remembered. A failure is not remembered
    (`Evaluator.literal`). -/
def literal (node : Nat) (l : Literal) : EvalM Value := fun m =>
  match m.literals.lookup node with
  | some v => .done v m
  | none =>
    match l.value with
    | .ok v => .done v { m with literals := (node, v) :: m.literals }
    | .error cause => .failed (.of cause) m

end Eval

end ExprLang
