import ExprLang.Eval.Interp

/-!
# Running host functions

A host function is run by answering its script. The values and slots that it is given are kept here;
the script only names them.
-/

namespace ExprLang

/-- What a host function has been given: argument expressions, values and slots. -/
structure Given where
  args : List Expr := []
  values : List Value := []
  slots : List Slot := []

namespace Given

variable (given : Given)

/-- The value that an operand names. -/
def operand : Operand → Value
  | .given place => given.values.getD place .zero
  | .scalar x => x.toValue

/-- Gives some more values. -/
def hand (vs : List Value) : Except Cause (List Argument) × Given :=
  (.ok (vs.map Argument.ofValue), { given with values := given.values ++ vs })

end Given

namespace Interp

variable (ip : Interp) (invoke : Function → List Value → EvalM Value) (scope : Nat)

/-- Answers a request; `invoke` calls a function on behalf of the host. Where a request names what
    was not given, nothing is handed over. -/
def answer (given : Given) : Request → EvalM (Except Cause (List Argument) × Given)
  | .scope => return given.hand [.scope scope]
  | .visit arg =>
    match given.args[arg]? with
    | some e => do
      let v ← ip.visit scope e
      return given.hand [v]
    | none => return given.hand []
  | .resolve arg =>
    match given.args[arg]? with
    | some e => do
      let slot ← ip.resolveExpr scope e
      return { given with slots := given.slots ++ [slot] }.hand []
    | none => return given.hand []
  | .read place =>
    match given.slots[place]? with
    | some slot => do
      let s ← EvalM.store
      match slot.read s with
      | .ok v => return given.hand [v]
      | .error cause => return (.error cause, given)
    | none => return given.hand []
  | .write place value =>
    match given.slots[place]? with
    | some slot => do
      -- writing may move the slot, as when an array grows
      let slot ← write slot (given.operand value)
      return { given with slots := given.slots.set place slot }.hand [given.operand value]
    | none => return given.hand []
  | .truth value => do
    let s ← EvalM.store
    match s.truthy? (given.operand value) with
    | some b => return given.hand [.ofBool b]
    | none => EvalM.failWith (.truthOperand (given.operand value).kind)
  | .elements place =>
    match given.values[place]? with
    | some (.array id) => do
      let s ← EvalM.store
      return given.hand (s.elements id).toList
    | _ => return given.hand []
  | .array elems => do
    let v ← EvalM.update fun s => s.newArray (elems.map given.operand).toArray
    return given.hand [v]
  | .invoke place args =>
    match given.values[place]? with
    | some (.function id) => do
      let s ← EvalM.store
      match s.functions[id]? with
      | some f => do
        let v ← invoke f (args.map given.operand)
        return given.hand [v]
      | none => return given.hand []
    | _ => return given.hand []

/-- Runs a script on what it has been given. -/
def script : Script → Given → EvalM Value
  | .give value, given => return given.operand value
  | .fail fault, _ => EvalM.fail fault
  | .ask request next, given => do
    let (answer, given) ← ip.answer invoke scope given request
    script (next answer) given

end Interp

end ExprLang
