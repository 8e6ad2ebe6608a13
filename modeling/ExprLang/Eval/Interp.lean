import ExprLang.Eval.Literal
import ExprLang.Eval.Operator
import ExprLang.Store.Slot

/-!
# Evaluation steps

Every step of evaluation is a definition over an `Interp`, which says how an expression inside the
one at hand is evaluated. `Eval.visit` ties the knot: it hands each step an `Interp` with less
fuel.
-/

namespace ExprLang

/-- What a step of evaluation may use (`Evaluator`): the settings, a bound on the rounds of a loop,
    the evaluation of an expression in a scope, and the opening of a call, which makes a scope ready
    and evaluates the body of the call in it. -/
structure Interp where
  engine : Engine
  rounds : Nat
  visit : Nat → Expr → EvalM Value
  enter : EvalM Nat → Expr → EvalM Value

namespace Interp

/-- The steps that evaluate an expression by `visit`: a call is open while its body is evaluated,
    and the number of open calls may not exceed the limit. -/
def ofVisit (engine : Engine) (rounds : Nat) (visit : Nat → Expr → EvalM Value) : Interp where
  engine := engine
  rounds := rounds
  visit := visit
  enter := fun ready body =>
    EvalM.nested engine.depthLimit? do
      let scope ← ready
      visit scope body

variable (ip : Interp)

/-- The values of some expressions, from left to right (`ListNode.Eval`). -/
def visitAll (scope : Nat) : List Expr → EvalM (List Value)
  | [] => return []
  | e :: es => do
    let v ← ip.visit scope e
    let vs ← visitAll scope es
    return v :: vs

/-- The values of the members of an object expression, in order (`ObjectNode.Eval`). -/
def visitEntries (scope : Nat) : List Entry → EvalM (List (Text × Value))
  | [] => return []
  | .mk key _ value :: es => do
    let v ← ip.visit scope value
    let vs ← visitEntries scope es
    return (key, v) :: vs

/-- Reads a slot (`Lvalue.Read`). -/
def read (slot : Slot) : EvalM Value := do
  let s ← EvalM.store
  EvalM.check (slot.read s)

/-- Writes a slot, and answers with the slot as it is then (`Lvalue.Write`). -/
def write (slot : Slot) (v : Value) : EvalM Slot := fun m =>
  match slot.write m.store v with
  | .ok (slot, s) => .done slot { m with store := s }
  | .error cause => .failed (.of cause) m

/-- Finds the slot of a target (`referenceNode.resolve`). -/
def resolve (scope : Nat) (target : Target) : EvalM Slot :=
  EvalM.locating target.pos <|
    match target with
    | .name name _ => return .name scope name
    | .index base index _ => do
      let b ← ip.visit scope base
      let k ← ip.visit scope index
      let s ← EvalM.store
      EvalM.check (Slot.ofIndex s b k)
    | .member base name _ => do
      let b ← ip.visit scope base
      return Slot.ofMember b name

/-- Finds the slot of any expression (`Evaluator.Resolve`): what is no target is a slot of its own.
    -/
def resolveExpr (scope : Nat) (e : Expr) : EvalM Slot :=
  match e.target? with
  | some target => ip.resolve scope target
  | none => do
    let v ← ip.visit scope e
    return .immediate v

/-- The truth of a condition; a value without truth is a fault at the condition
    (`Evaluator.condition`). -/
def condition (scope : Nat) (e : Expr) : EvalM Bool := do
  let v ← ip.visit scope e
  let s ← EvalM.store
  match s.truthy? v with
  | some b => return b
  | none => EvalM.fail (.atPos (.truthOperand v.kind) e.pos)

/-- Finishes `&&` or `||` after the left operand (`Evaluator.shortCircuit`): the right one is
    evaluated only if it decides. -/
def shortCircuit (scope : Nat) (op : LogicOp) (left : Value) (right : Expr) : EvalM Value := do
  let l ← Eval.truthOf op.spelling left
  match op, l with
  | .and, false => return .ofBool false
  | .or, true => return .ofBool true
  | _, _ => do
    let v ← ip.visit scope right
    let r ← Eval.truthOf op.spelling v
    return .ofBool r

/-- The value of a binary expression (`BinaryExprNode.Eval`). -/
def binary (scope : Nat) (op : BinaryOp) (left right : Expr) : EvalM Value := do
  let l ← ip.visit scope left
  match op with
  | .sequence => ip.visit scope right
  | .logic op => ip.shortCircuit scope op l right
  | .arith op => do
    let r ← ip.visit scope right
    Eval.applyArith op l r
  | .order op => do
    let r ← ip.visit scope right
    EvalM.check (Eval.applyOrder op l r)
  | .equality op => do
    let r ← ip.visit scope right
    Eval.applyEquality op l r

/-- Counts a target up or down, and answers with its values before and after (`PrefixExprNode.Eval`,
    `PostfixExprNode.Eval`). -/
def stepTarget (scope : Nat) (op : StepOp) (target : Target) : EvalM (Value × Value) := do
  let slot ← ip.resolve scope target
  let before ← read slot
  let after ← EvalM.check (Eval.applyStep op before)
  let _ ← write slot after
  return (before, after)

/-- Assigns to a target, which is found before the value is evaluated (`AssignExprNode.Eval`). -/
def assign (scope : Nat) (op : AssignOp) (target : Target) (value : Expr) : EvalM Value := do
  let slot ← ip.resolve scope target
  let result ←
    match op with
    | .plain => ip.visit scope value
    | .logic op => do
      let current ← read slot
      ip.shortCircuit scope op current value
    | .arith op => do
      let current ← read slot
      let r ← ip.visit scope value
      Eval.applyArith op current r
  let _ ← write slot result
  return result

end Interp

end ExprLang
