import ExprLang.Eval.Call

/-!
# Evaluation

The value of an expression in a scope, of a program, and of a call made by the host. The fuel
bounds how deep evaluation may go and how many rounds a loop may have; with enough of it the answer
does not depend on it.
-/

namespace ExprLang

/-- One step of evaluation (`Node.Eval`): the value of an expression by way of the values of its
    parts. -/
def Interp.expr (ip : Interp) (scope : Nat) (e : Expr) : EvalM Value :=
  match e with
  | .literal node kind lexeme _ => Eval.literal node ⟨kind, lexeme⟩
  | .ref target => do
    let slot ← ip.resolve scope target
    Interp.read slot
  | .call callee args text pos => ip.call scope callee args ⟨text, pos⟩
  | .list elems _ => do
    let vs ← ip.visitAll scope elems
    EvalM.update fun s => s.newArray vs.toArray
  | .object entries _ => do
    let vs ← ip.visitEntries scope entries
    EvalM.update fun s => s.newObject (Members.ofList vs)
  | .group inner _ => ip.visit scope inner
  | .unary op operand _ => do
    let v ← ip.visit scope operand
    Eval.applyUnary op v
  | .stepBefore op target _ => do
    let (_, after) ← ip.stepTarget scope op target
    return after
  | .stepAfter op target _ => do
    let (before, _) ← ip.stepTarget scope op target
    return before
  | .binary op left right _ => ip.binary scope op left right
  | .conditional test ifTrue ifFalse _ => do
    let holds ← ip.condition scope test
    if holds then ip.visit scope ifTrue else ip.visit scope ifFalse
  | .assign op target value _ => ip.assign scope op target value

namespace Eval

/-- The value of an expression in a scope (`Evaluator.Visit`). A fault without a place gets that of
    the expression. -/
def visit (engine : Engine) : Nat → Nat → Expr → EvalM Value
  | 0, _, _ => EvalM.exhausted
  | fuel + 1, scope, e =>
    EvalM.locating e.pos ((Interp.ofVisit engine fuel (visit engine fuel)).expr scope e)

end Eval

namespace Engine

/-- The steps of evaluation with a given fuel. -/
def interp (engine : Engine) (fuel : Nat) : Interp :=
  Interp.ofVisit engine fuel (Eval.visit engine fuel)

/-- Fuel that no program uses up in practice. -/
def ampleFuel : Nat := 1000000000000000

/-- Logs the scope that a program has run in, if the engine is asked to. -/
def dumpScope (engine : Engine) (scope : Nat) (m : Machine) : Machine :=
  if engine.debug.dump then
    { m with log := m.log.push (.scopeDump (m.store.repr (.scope scope)).mended) }
  else m

/-- Runs a program in a scope (`Engine.Evaluate`). The value of an empty program is zero. -/
def evaluate (engine : Engine) (fuel : Nat) (program : Program) (scope : Nat) : EvalM Value :=
  match program.root with
  | none => return .zero
  | some root => fun m =>
    match Eval.visit engine fuel scope root m with
    | .done v m => .done v (engine.dumpScope scope m)
    | .failed f m => .failed f (engine.dumpScope scope m)
    | .outOfFuel => .outOfFuel

/-- Compiles a source text and runs it in a scope (`Engine.Eval`). -/
def eval (engine : Engine) (fuel : Nat) (source : String) (scope : Nat) : EvalM Value := do
  let program ← engine.compile source
  engine.evaluate fuel program scope

/-- Calls a function from outside of any program (`FunctionValue.Invoke`). -/
def invoke (engine : Engine) (fuel : Nat) (scope : Nat) (f : Function) (args : List Value) :
    EvalM Value :=
  (engine.interp fuel).invoke scope f args

end Engine

end ExprLang
