import ExprLang.Eval.Monad
import ExprLang.Number.Integer
import ExprLang.Store.Equality
import ExprLang.Store.Render

/-!
# What operators compute

Whole numbers stay whole and wrap; a double on either side makes the result a double. A text on
either side of `+` joins texts, and two arrays are joined to a new one.
-/

namespace ExprLang.Eval

open Number

/-- The text of a number, as messages show it. -/
def numberText : Value → String
  | .int n => toString n.toInt
  | .double x => x.toText
  | _ => ""

/-- The fault of operands that an operator does not take (`unsupportedBinary`). -/
def unsupported (operator : String) (l r : Value) : Cause :=
  .binaryOperands operator l.kind r.kind

/-- Applies the whole-number or the double form of an operator (`opArith`). -/
def numeric (operator : String) (onInts : Int64 → Int64 → Int64)
    (onDoubles : Double → Double → Double) (l r : Value) : Except Cause Value :=
  match l, r with
  | .int a, .int b => .ok (.int (onInts a b))
  | _, _ =>
    match l.toDouble?, r.toDouble? with
    | some x, some y => .ok (.double (onDoubles x y))
    | _, _ => .error (unsupported operator l r)

/-- Applies an operator of whole numbers. -/
def integral (operator : String) (f : Int64 → Int64 → Except Cause Int64) (l r : Value) :
    Except Cause Value :=
  match l, r with
  | .int a, .int b =>
    match f a b with
    | .ok n => .ok (.int n)
    | .error cause => .error cause
  | _, _ => .error (unsupported operator l r)

/-- The quotient (`opDiv`): toward the floor for whole numbers. -/
def divide (l r : Value) : Except Cause Value :=
  match l, r with
  | .int a, .int b =>
    if b = 0 then .error (.divisionByZero (numberText l) (numberText r))
    else .ok (.int (floorDiv a b))
  | _, _ =>
    match l.toDouble?, r.toDouble? with
    | some x, some y => .ok (.double (x.div y))
    | _, _ => .error (unsupported ArithOp.div.spelling l r)

/-- The power (`opPow`): whole for a whole base and a whole exponent that is not negative. -/
def power (l r : Value) : Except Cause Value :=
  match l.toDouble?, r.toDouble? with
  | some x, some y =>
    if x.isZero && y.less (Double.ofInt 0) then
      .error (.negativePowerOfZero (numberText l) (numberText r))
    else
      match l, r with
      | .int a, .int b =>
        if 0 ≤ b.toInt then .ok (.int (intPow a b.toInt.toNat)) else .ok (.double (x.pow y))
      | _, _ => .ok (.double (x.pow y))
  | _, _ => .error (unsupported ArithOp.pow.spelling l r)

/-- A shift, refused for a negative count (`opShift`). -/
def shift (op : ArithOp) (f : Int64 → Int64 → Int64) (l r : Value) : Except Cause Value :=
  integral op.spelling
    (fun a b => if b < 0 then .error (.negativeShift op.spelling b) else .ok (f a b)) l r

/-- An operator on two values, as far as it needs no store. -/
def arithmetic (op : ArithOp) (l r : Value) : Except Cause Value :=
  match op with
  | .add => numeric op.spelling (· + ·) Double.add l r
  | .sub => numeric op.spelling (· - ·) Double.sub l r
  | .mul => numeric op.spelling (· * ·) Double.mul l r
  | .div => divide l r
  | .mod =>
    integral op.spelling
      (fun a b =>
        if b = 0 then .error (.modulusByZero (numberText l) (numberText r))
        else .ok (floorMod a b))
      l r
  | .pow => power l r
  | .shiftLeft => shift op Number.shiftLeft l r
  | .shiftRight => shift op Number.shiftRight l r
  | .shiftRightUnsigned => shift op Number.shiftRightUnsigned l r
  | .bitAnd => integral op.spelling (fun a b => .ok (a &&& b)) l r
  | .bitXor => integral op.spelling (fun a b => .ok (a ^^^ b)) l r
  | .bitOr => integral op.spelling (fun a b => .ok (a ||| b)) l r

/-- Whether a value is a text. -/
def isText : Value → Bool
  | .text _ => true
  | _ => false

/-- An operator on two values; `+` may join texts or arrays (`binaryOp`). -/
def applyArith (op : ArithOp) (l r : Value) : EvalM Value := do
  let s ← EvalM.store
  if op = .add ∧ (isText l ∨ isText r) then
    return .text (s.text l ++ s.text r)
  else
    match op, l, r with
    | .add, .array i, .array j => EvalM.update fun s => s.newArray (s.elements i ++ s.elements j)
    | _, _, _ => EvalM.check (arithmetic op l r)

/-- Whether a comparison with the given outcome satisfies an ordering (`compareResult`). -/
def orderHolds : OrderOp → Ordering → Bool
  | .lt, o => o.isLT
  | .le, o => o.isLE
  | .gt, o => o.isGT
  | .ge, o => o.isGE

/-- Whether two doubles are in an order; NaN is in none. -/
def orderDoubles : OrderOp → Double → Double → Bool
  | .lt, x, y => x.less y
  | .le, x, y => x.lessOrEqual y
  | .gt, x, y => y.less x
  | .ge, x, y => y.lessOrEqual x

/-- An ordering of two texts, by their bytes, or of two numbers (`opCompare`). -/
def applyOrder (op : OrderOp) (l r : Value) : Except Cause Value :=
  match l, r with
  | .text a, .text b => .ok (.ofBool (orderHolds op (compare a b)))
  | .int a, .int b => .ok (.ofBool (orderHolds op (compare a.toInt b.toInt)))
  | _, _ =>
    match l.toDouble?, r.toDouble? with
    | some x, some y => .ok (.ofBool (orderDoubles op x y))
    | _, _ => .error (unsupported op.spelling l r)

/-- A test for equality. A comparison without an end fails with a cause of its own, which is never
    told to anyone: a run of the command that meets it has no ending (`Command.Transcript.exec`). -/
def applyEquality (op : EqualityOp) (l r : Value) : EvalM Value := do
  let s ← EvalM.store
  match s.equal? l r with
  | none => EvalM.failWith .endlessComparison
  | some equal => return .ofBool (if op = .equal then equal else !equal)

/-- The truth of an operand of a logical operator (`truthOperand`). -/
def truthOf (operator : String) (v : Value) : EvalM Bool := do
  let s ← EvalM.store
  match s.truthy? v with
  | some b => return b
  | none => EvalM.failWith (.unaryOperand operator v.kind)

/-- An operator on one value (`unaryOp`). -/
def applyUnary (op : UnaryOp) (v : Value) : EvalM Value :=
  match op, v with
  | .not, _ => do
    let b ← truthOf op.spelling v
    return .ofBool (!b)
  | .bitNot, .int n => return .int (~~~n)
  | .plus, .int n => return .int n
  | .plus, .double x => return .double x
  | .minus, .int n => return .int (-n)
  | .minus, .double x => return .double x.neg
  | _, _ => EvalM.failWith (.unaryOperand op.spelling v.kind)

/-- The value one up or one down; only whole numbers are counted (`increment`). -/
def applyStep (op : StepOp) (v : Value) : Except Cause Value :=
  match op, v with
  | .increment, .int n => .ok (.int (n + 1))
  | .decrement, .int n => .ok (.int (n - 1))
  | _, _ => .error (.unaryOperand op.spelling v.kind)

end ExprLang.Eval
