import ExprLang.Engine
import ExprLang.Store

/-!
# Computations of a run

A computation changes the machine and ends with a value, with a fault, or because it was not given
enough fuel. The machine keeps what it has done also when a fault ends it.
-/

namespace ExprLang

/-- The state of a run: the store, what was printed and logged, the number of open calls, the
    literal nodes of all programs compiled so far, each under its number, and the values of the
    nodes met so far (`evalState`). -/
structure Machine where
  store : Store := {}
  out : Text := ""
  log : Array LogRecord := #[]
  depth : Nat := 0
  nodes : Array Literal := #[]
  literals : List (Nat × Value) := []

/-- How a computation ends. -/
inductive Outcome (α : Type) where
  | done (a : α) (m : Machine)
  | failed (f : Fault) (m : Machine)
  | outOfFuel

/-- A computation of a run. -/
def EvalM (α : Type) : Type := Machine → Outcome α

namespace EvalM

variable {α β : Type}

/-- Ends with a value. -/
@[inline] def done (a : α) : EvalM α := fun m => .done a m

/-- Goes on with the value of the first computation. -/
@[inline] def andThen (x : EvalM α) (f : α → EvalM β) : EvalM β := fun m =>
  match x m with
  | .done a m => f a m
  | .failed fault m => .failed fault m
  | .outOfFuel => .outOfFuel

instance : Monad EvalM where
  pure := done
  bind := andThen

/-- Ends for want of fuel. -/
def exhausted : EvalM α := fun _ => .outOfFuel

/-- Ends with a fault. -/
def fail (f : Fault) : EvalM α := fun m => .failed f m

/-- Ends with a fault of unknown place. -/
def failWith (cause : Cause) : EvalM α := fail (.of cause)

/-- The value of a check, or its cause of failure as a fault. -/
@[inline] def check (x : Except Cause α) : EvalM α :=
  match x with
  | .ok a => done a
  | .error cause => failWith cause

/-- The value of a host computation, or its fault. -/
@[inline] def lift (x : Except Fault α) : EvalM α :=
  match x with
  | .ok a => done a
  | .error f => fail f

/-- The store. -/
@[inline] def store : EvalM Store := fun m => .done m.store m

/-- Carries out a change of the store that has a result. -/
@[inline] def update (f : Store → α × Store) : EvalM α := fun m =>
  let (a, s) := f m.store
  .done a { m with store := s }

/-- Changes the fault that a computation ends with, if it does. -/
@[inline] def mapFault (change : Fault → Fault) (x : EvalM α) : EvalM α := fun m =>
  match x m with
  | .failed f m => .failed (change f) m
  | outcome => outcome

/-- Gives a place to a fault that has none (`positioned`). -/
@[inline] def locating (pos : Position) (x : EvalM α) : EvalM α :=
  mapFault (fun f => f.located pos) x

/-- Notes that a fault leaves a call (`CallNode.wrap`). -/
@[inline] def inCall (site : CallSite) (x : EvalM α) : EvalM α :=
  mapFault (fun f => f.leaving site) x

/-- Adds to the printed text. -/
def print (text : Text) : EvalM Unit := fun m => .done () { m with out := m.out ++ text }

/-- Adds to the log. -/
def logAll (records : List LogRecord) : EvalM Unit := fun m =>
  .done () { m with log := m.log ++ records.toArray }

/-- Whether one more call may be opened (`Evaluator.enter`). -/
def mayEnter (limit? : Option Nat) (depth : Nat) : Bool :=
  match limit? with
  | none => true
  | some limit => decide (depth < limit)

/-- Runs a computation as a call (`Evaluator.enter`, `Evaluator.leave`): one more call is open while
    it runs, and the number of open calls may not exceed the limit. -/
@[inline] def nested (limit? : Option Nat) (x : EvalM α) : EvalM α := fun m =>
  if mayEnter limit? m.depth then
    match x { m with depth := m.depth + 1 } with
    | .done a m => .done a { m with depth := m.depth - 1 }
    | .failed f m => .failed f { m with depth := m.depth - 1 }
    | .outOfFuel => .outOfFuel
  else .failed (.of (.depthExceeded (limit?.getD 0))) m

/-- Runs a computation that keeps the values of its literals apart. -/
@[inline] def withOwnLiterals (x : EvalM α) : EvalM α := fun m =>
  let saved := m.literals
  match x { m with literals := [] } with
  | .done a m => .done a { m with literals := saved }
  | .failed f m => .failed f { m with literals := saved }
  | .outOfFuel => .outOfFuel

end EvalM

end ExprLang
