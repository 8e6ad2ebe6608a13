import ExprLang.Eval.Interp

/-!
# Forms

The functions that get their arguments as expressions: branches, loops and definitions.
-/

namespace ExprLang

namespace Eval

/-- Repeats a body as long as a condition holds, for a bounded number of rounds (`liteWhile`,
    `liteFor`). The result is that of the last round, or the one given. -/
def loop (test : EvalM Bool) (body : EvalM Value) : Nat → Value → EvalM Value
  | 0, _ => EvalM.exhausted
  | rounds + 1, result => do
    let go ← test
    if go then do
      let result ← body
      loop test body rounds result
    else return result

/-- Writes each item to a slot and runs the body after it. The result is that of the last item, or
    the one given. -/
def forEach (body : EvalM Value) (slot : Slot) : List Value → Value → EvalM Value
  | [], result => return result
  | item :: items, _ => do
    let slot ← Interp.write slot item
    let result ← body
    forEach body slot items result

/-- Adds a pair of key and value for each member of a container. -/
def pairs : List (Text × Value) → Store → List Value × Store
  | [], s => ([], s)
  | (key, v) :: rest, s =>
    let (pair, s) := s.newArray #[.text key, v]
    let (others, s) := pairs rest s
    (pair :: others, s)

/-- The items of a container: the elements of an array, or a pair of key and value for each member.
    -/
def items (v : Value) : EvalM (List Value) :=
  match v with
  | .array id => do
    let s ← EvalM.store
    return (s.elements id).toList
  | .object id => EvalM.update fun s => pairs (s.members id).entries s
  | .scope id => EvalM.update fun s => pairs (s.bindings id).entries s
  | _ => EvalM.failWith (.notIterable v.kind)

end Eval

namespace Interp

variable (ip : Interp)

/-- The branch of the first condition that holds; after the last condition, the branch that is left
    or zero (`liteIf`). -/
def choose (scope : Nat) : List Expr → EvalM Value
  | [] => return .zero
  | [otherwise] => ip.visit scope otherwise
  | test :: branch :: rest => do
    let holds ← ip.condition scope test
    if holds then ip.visit scope branch else choose scope rest

/-- A loop over the items that a container has when the loop begins (`liteForeach`). -/
def loopEach (scope : Nat) (element container body : Expr) : EvalM Value :=
  match element.target? with
  | none => EvalM.fail (.atPos (.iterationTarget element.describe) element.pos)
  | some target => do
    let slot ← ip.resolve scope target
    let v ← ip.visit scope container
    let items ← Eval.items v
    Eval.forEach (ip.visit scope body) slot items .zero

/-- A new closure over the scope at hand (`liteFunction`). -/
def define (scope : Nat) (signature body : Expr) : EvalM Value := do
  let v ← ip.visit scope signature
  match v with
  | .text sig =>
    match Arity.ofSignature sig.mended.toList with
    | .ok arity => EvalM.update fun s => s.newFunction (.closure arity body scope)
    | .error c => EvalM.failWith (.signatureCharacter c)
  | _ => EvalM.failWith (.signatureKind v.kind)

end Interp

end ExprLang
