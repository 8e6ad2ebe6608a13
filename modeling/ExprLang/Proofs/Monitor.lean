import ExprLang.Proofs.Simulation.Steps

/-!
# Monitored evaluation

`Eval.visitUnder` is evaluation with something done around every visit and at the opening of every
call. It is told how many calls have been opened since the start and are still open. Under the
monitor that only opens calls it is plain evaluation (`Eval.visitUnder_plain`), so that what two
monitors have in common can be told of `Eval.visit`.
-/

namespace ExprLang

namespace Eval

/-- What is done around each visit and at the opening of each call, so many calls being open. -/
structure Monitor where
  around : Nat → EvalM Value → EvalM Value
  opening : Nat → EvalM Value → EvalM Value

/-- The steps of evaluation under a monitor, with `calls` open calls. -/
def Monitor.interp (μ : Monitor) (engine : Engine) (rounds : Nat)
    (visit : Nat → Nat → Expr → EvalM Value) (calls : Nat) : Interp where
  engine := engine
  rounds := rounds
  visit := visit calls
  enter := fun ready body =>
    μ.opening calls do
      let scope ← ready
      visit (calls + 1) scope body

/-- The value of an expression in a scope, under a monitor, with `calls` open calls. -/
def visitUnder (μ : Monitor) (engine : Engine) : Nat → Nat → Nat → Expr → EvalM Value
  | 0, _, _, _ => EvalM.exhausted
  | fuel + 1, calls, scope, e =>
    μ.around calls <| EvalM.locating e.pos <|
      (μ.interp engine fuel (visitUnder μ engine fuel) calls).expr scope e

/-- Opens calls as the engine allows, and does nothing else. -/
def Monitor.plain (engine : Engine) : Monitor where
  around := fun _ x => x
  opening := fun _ x => EvalM.nested engine.depthLimit? x

/-- Evaluation under the plain monitor is evaluation. -/
theorem visitUnder_plain (engine : Engine) (fuel calls : Nat) :
    visitUnder (.plain engine) engine fuel calls = visit engine fuel := by
  induction fuel generalizing calls with
  | zero => rfl
  | succ fuel ih =>
    have hip : (Monitor.plain engine).interp engine fuel
        (visitUnder (.plain engine) engine fuel) calls =
          Interp.ofVisit engine fuel (visit engine fuel) := by
      rw [Monitor.interp, Interp.ofVisit, ih calls, ih (calls + 1)]
      rfl
    funext scope e
    simp only [visitUnder, visit, hip]
    rfl

end Eval

namespace Simulation

open Eval

variable {S : Simulation}

/-- Monitors that do the same to what ends alike. -/
structure Monitors (S : Simulation) (μ ν : Monitor) : Prop where
  around : ∀ {k : Nat} {L : Links} {x y : Nat → EvalM Value}, S.Sim k L Value.Linked x y →
    S.Sim k L Value.Linked (fun i => μ.around k (x i)) (fun i => ν.around k (y i))
  opening : ∀ {k : Nat} {L : Links} {x y : Nat → EvalM Value}, S.Sim (k + 1) L Value.Linked x y →
    S.Sim k L Value.Linked (fun i => μ.opening k (x i)) (fun i => ν.opening k (y i))

variable {μ ν : Monitor} {engine engine' : Engine} {visit visit' : Nat → Nat → Expr → EvalM Value}

/-- The step: visits that end alike, at every number of open calls, make steps that end alike. -/
theorem Monitors.interps (h : S.Monitors μ ν) (hdebug : engine.debug = engine'.debug)
    (hsink : engine.brokenSink = engine'.brokenSink) {rounds rounds' : Nat}
    (hrounds : S.Enough rounds rounds')
    (hvisit : ∀ {k : Nat} {L : Links} {a b : Nat}, L.frames a b → ∀ e, L.Knows e →
      S.Sim k L Value.Linked (fun _ => visit k a e) (fun _ => visit' k b e)) (k : Nat) :
    S.Interps k (fun _ => True) (fun _ => μ.interp engine rounds visit k)
      (fun _ => ν.interp engine' rounds' visit' k) where
  debug := fun _ _ => hdebug
  sink := fun _ _ => hsink
  rounds := .inl ⟨rounds, rounds', fun _ => rfl, fun _ => rfl, hrounds⟩
  parts := fun _ _ _ => trivial
  visit := fun hs e he => hvisit hs e he.known
  enter := fun hready body hbody =>
    h.opening (Sim.bind (hready (k + 1)) fun _ hL _ _ hscope => hvisit hscope body (hbody.mono hL))

/-- The run: evaluations under such monitors end alike, the second having enough fuel. -/
theorem Monitors.visitUnder (h : S.Monitors μ ν) (hdebug : engine.debug = engine'.debug)
    (hsink : engine.brokenSink = engine'.brokenSink) {fuel fuel' : Nat}
    (hfuel : S.Enough fuel fuel') {k : Nat} {L : Links} {a b : Nat} (hs : L.frames a b)
    (e : Expr) (he : L.Knows e) :
    S.Sim k L Value.Linked (fun _ => visitUnder μ engine fuel k a e)
      (fun _ => visitUnder ν engine' fuel' k b e) := by
  induction fuel generalizing fuel' k L a b e with
  | zero =>
    rcases hfuel with ⟨hexhausts, rfl⟩ | ⟨hlost, -⟩
    · exact Sim.exhausted hexhausts
    · exact Sim.lostFuel hlost
  | succ fuel ih =>
    obtain ⟨fuel', rfl, hfuel'⟩ := hfuel.succ
    have hip := h.interps hdebug hsink hfuel' (fun hs e he => ih hfuel' hs e he) k
    exact h.around (Sim.locating e.pos (hip.expr hs (fun _ _ => trivial) he))

end Simulation

end ExprLang
