import ExprLang.Console
import ExprLang.Eval.Compile
import ExprLang.Eval.Form
import ExprLang.Eval.Host

/-!
# Calls

A closure runs in a frame of its own, which holds its arguments and extends the scope the closure
was made in. A fault that comes out of a call is told together with the call.
-/

namespace ExprLang.Interp

variable (ip : Interp)

/-- The value made whole, if it is a number (`roundWith`): a double that fits becomes a whole
    number. -/
def whole (mode : Double.Rounding) (v : Value) : Except Cause Value :=
  match v with
  | .int n => .ok (.int n)
  | .double x =>
    if x.isFinite then
      let n := x.toInt mode
      if Int64.minValue.toInt ≤ n ∧ n ≤ Int64.maxValue.toInt then .ok (.int (Int64.ofInt n))
      else .ok (.double x)
    else .ok (.double x)
  | _ => .error (.unsupportedArgument (Primitive.whole mode).name v.kind)

/-- The size of a text, in characters, or of a container (`liteLen`). -/
def len (s : Store) (v : Value) : Except Cause Value :=
  match v with
  | .text t => .ok (.ofNat t.chars.length)
  | .array id => .ok (.ofNat (s.elements id).size)
  | .object id => .ok (.ofNat (s.members id).size)
  | _ => .error (.unsupportedArgument Primitive.len.name v.kind)

/-- Writes the texts of some values as one line (`litePrint`). -/
def print (args : List Value) : EvalM Value := do
  let s ← EvalM.store
  match ip.engine.brokenSink with
  | some why => EvalM.failWith (.printFailed why)
  | none => do
    EvalM.print (Text.join " " (args.map s.text) ++ "\n")
    return .ofNat args.length

/-- Runs a text as a program in a scope (`Evaluator.Eval`). -/
def evalText (scope : Nat) (source : String) : EvalM Value := do
  let program ← ip.engine.compile source
  match program.root with
  | none => return .zero
  | some root => EvalM.withOwnLiterals (ip.enter (return scope) root)

/-- Adds the frame of a closure's call: its arguments, the root of its scope, and its scope if that
    is no root. -/
def callFrame (scope : Nat) (args : List Value) (s : Store) : Nat × Store :=
  let (id, s) := s.newFrame scope
  let (arg, s) := s.newArray args.toArray
  let s := s.bind id "ARG" arg
  let root := s.root scope
  let s := s.bind id "GLOBAL" (.scope root)
  (id, if root = scope then s else s.bind id "UPSCOPE" (.scope scope))

/-- Runs a closure's body (`liteFunction`). -/
def callClosure (body : Expr) (scope : Nat) (args : List Value) : EvalM Value :=
  ip.enter (EvalM.update (callFrame scope args)) body

/-- Calls a primitive with the values of its arguments, whose number has been checked. `again` calls
    another function on its behalf. -/
def callPrimitive (again : Nat → Function → List Value → EvalM Value) (scope : Nat)
    (op : Primitive) (args : List Value) : EvalM Value :=
  match op, args with
  | .whole mode, [v] => EvalM.check (whole mode v)
  | .sqrt, [v] =>
    match v.toDouble? with
    | some x => return .double x.sqrt
    | none => EvalM.failWith (.unsupportedArgument Primitive.sqrt.name v.kind)
  | .len, [v] => do
    let s ← EvalM.store
    EvalM.check (len s v)
  | .print, args => ip.print args
  | .eval, [v] =>
    match v with
    -- A program is made of characters; a byte that begins none is read as the replacement.
    | .text source => ip.evalText scope source.mended
    | _ => EvalM.failWith (.unsupportedArgument Primitive.eval.name v.kind)
  | .native f, args => do
    let v ← EvalM.lift (f.run (args.map Argument.ofValue))
    return v.toValue
  | .eager f, args =>
    ip.script (again scope) scope (f.run (args.map Argument.ofValue)) { values := args }
  | .clear, _ => do
    EvalM.print Console.clearScreen
    return .zero
  | .dump, _ => do
    let s ← EvalM.store
    EvalM.print (Console.note [s.repr (.scope scope)])
    return .zero
  | op, args => EvalM.failWith (.argumentCount op.arity args.length)

/-- Calls a function with the values of its arguments. -/
def invokeWith (again : Nat → Function → List Value → EvalM Value) (scope : Nat) (f : Function)
    (args : List Value) : EvalM Value :=
  match f with
  | .form form => EvalM.failWith (.lazyInvoked form.name)
  | .primitive op =>
    if op.arity.accepts args.length then ip.callPrimitive again scope op args
    else EvalM.failWith (.argumentCount op.arity args.length)
  | .closure arity body captured =>
    if arity.accepts args.length then ip.callClosure body captured args
    else EvalM.failWith (.argumentCount arity args.length)

/-- Calls a function with the values of its arguments; a function may call another one on its
    behalf at most `fuel` deep. -/
def invokeUpTo : Nat → Nat → Function → List Value → EvalM Value
  | 0 => fun _ _ _ => EvalM.exhausted
  | fuel + 1 => ip.invokeWith (invokeUpTo fuel)

/-- Calls a function with the values of its arguments (`FunctionValue.Invoke`). -/
def invoke (scope : Nat) (f : Function) (args : List Value) : EvalM Value :=
  ip.invokeUpTo ip.rounds scope f args

/-- Calls a form with its arguments, whose number has been checked (`FunctionValue.callLazy`). -/
def callForm (scope : Nat) (form : Form) (args : List Expr) : EvalM Value :=
  match form, args with
  | .choose, args => ip.choose scope args
  | .loopWhile, [test, body] =>
    Eval.loop (ip.condition scope test) (ip.visit scope body) ip.rounds .zero
  | .loopFor, [start, test, increment, body] => do
    let _ ← ip.visit scope start
    Eval.loop (ip.condition scope test)
      (do let _ ← ip.visit scope body; ip.visit scope increment) ip.rounds .zero
  | .loopEach, [target, container, body] => ip.loopEach scope target container body
  | .define, [signature, body] => ip.define scope signature body
  | .lazy f, args =>
    ip.script (ip.invoke scope) scope (f.run (args.map Shown.ofExpr)) { args }
  | form, args => EvalM.failWith (.argumentCount form.arity args.length)

/-- Calls what a target refers to (`CallNode.Eval`). Faults of the arguments stay as they are. -/
def call (scope : Nat) (callee : Target) (args : List Expr) (site : CallSite) : EvalM Value := do
  let v ← ip.visit scope (.ref callee)
  let s ← EvalM.store
  match v with
  | .function id =>
    match s.functions[id]? with
    | some (.form form) =>
      EvalM.inCall site <|
        if form.arity.accepts args.length then ip.callForm scope form args
        else EvalM.failWith (.argumentCount form.arity args.length)
    | some f => do
      let vs ← ip.visitAll scope args
      EvalM.inCall site (ip.invoke scope f vs)
    | none => EvalM.failWith (.notCallable callee.label v.kind)
  | _ => EvalM.failWith (.notCallable callee.label v.kind)

end ExprLang.Interp
