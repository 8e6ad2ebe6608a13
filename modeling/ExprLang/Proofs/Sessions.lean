import ExprLang.Proofs.Simulation.Identical

/-!
# Sessions

An evaluator can be asked to do one job after the other: to visit an expression, to run a program or
a text, to call a function. A job that fails leaves the machine as it is then, and the next job goes
on with it. What two evaluators do alike in every job they do alike in every session
(`Simulation.Interps.session`).
-/

namespace ExprLang

/-- What an evaluator can be asked to do. -/
inductive Job where
  /-- The value of an expression in a scope. -/
  | visit (scope : Nat) (e : Expr)
  /-- A program in a scope. -/
  | program (scope : Nat) (p : Program)
  /-- A text that is run as a program in a scope. -/
  | text (scope : Nat) (source : String)
  /-- A call of a function on behalf of a scope. -/
  | call (scope : Nat) (f : Function) (args : List Value)

/-- Takes a fault at the end for an answer. -/
def Outcome.attempt {α : Type} : Outcome α → Outcome (Except Fault α)
  | .done a m => .done (.ok a) m
  | .failed f m => .done (.error f) m
  | .outOfFuel => .outOfFuel

/-- The answer of a computation, which may be a fault. -/
def EvalM.attempt {α : Type} (x : EvalM α) : EvalM (Except Fault α) := fun m => (x m).attempt

namespace Job

/-- Does a job by way of an interpreter. -/
def run (ip : Interp) : Job → EvalM Value
  | .visit scope e => ip.visit scope e
  | .program _ ⟨none⟩ => return .zero
  | .program scope ⟨some root⟩ => fun m =>
    (ip.visit scope root m).mapMachine (ip.engine.dumpScope scope)
  | .text scope source => ip.evalText scope source
  | .call scope f args => ip.invoke scope f args

/-- Does jobs one after the other, whether they fail or not, and gives their answers. -/
def session (ip : Interp) : List Job → EvalM (List (Except Fault Value))
  | [] => return []
  | job :: jobs => do
    let answer ← EvalM.attempt (job.run ip)
    let answers ← session ip jobs
    return answer :: answers

/-- All nodes of what is asked for are known. -/
def Known (L : Links) : Job → Prop
  | .visit _ e => L.Knows e
  | .program _ p => ∀ root ∈ p.root, L.Knows root
  | .text _ _ => True
  | .call _ f _ => L.KnowsIn f

theorem Known.mono {L L' : Links} {job : Job} (h : job.Known L) (hL : L ≤ L') : job.Known L' := by
  cases job with
  | visit scope e => exact Links.Knows.mono h hL
  | program scope p => exact fun root hroot => (h root hroot).mono hL
  | text scope source => trivial
  | call scope f args => exact Links.KnowsIn.mono h hL

theorem known_same (job : Job) : job.Known .same := by
  cases job with
  | visit scope e => exact Links.same_knows e
  | program scope p => exact fun root _ => Links.same_knows root
  | text scope source => trivial
  | call scope f args => exact Links.same_knowsIn f

/-- The program of a job is run as the engine runs it. -/
theorem run_program (engine : Engine) (fuel scope : Nat) (p : Program) :
    (Job.program scope p).run (engine.interp fuel) = engine.evaluate fuel p scope := by
  obtain ⟨root⟩ := p
  cases root with
  | none => rfl
  | some root =>
    funext m
    rw [Engine.evaluate_some]
    rfl

end Job

namespace Simulation

/-- A relation of runs in which every cell stands for itself and no fault is lost. -/
structure SameCells (S : Simulation) : Prop where
  links : ∀ m n : Machine, ∃ nodes, S.links m n = .equal nodes
  admits : ∀ f : Function, S.admits f
  lost : ∀ f : Fault, ¬ S.lost (some f)

section Interps

variable {S : Simulation} {k : Nat} {engine : Engine} {fuel : Nat}

/-- The steps of evaluation under the monitor that only opens calls. -/
theorem monitorPlain_interp (engine : Engine) (fuel calls : Nat) :
    (Eval.Monitor.plain engine).interp engine fuel
      (Eval.visitUnder (.plain engine) engine fuel) calls = engine.interp fuel := by
  rw [Eval.Monitor.interp, Eval.visitUnder_plain, Eval.visitUnder_plain]
  rfl

/-- The steps of evaluation under two monitors that do the same. -/
theorem Monitors.interpsUnder {μ ν : Eval.Monitor} (h : S.Monitors μ ν)
    (hfuel : S.Enough fuel fuel) :
    S.Interps k (fun _ => True)
      (fun _ => μ.interp engine fuel (Eval.visitUnder μ engine fuel) k)
      (fun _ => ν.interp engine fuel (Eval.visitUnder ν engine fuel) k) :=
  h.interps rfl rfl hfuel (fun hs e he => h.visitUnder rfl rfl hfuel hs e he) k

end Interps

section Session

variable {S : Simulation} (hS : S.SameCells) {k : Nat} {ip ip' : Interp}
include hS

/-- Where every cell stands for itself, linked results are equal. -/
theorem Sim.same {L : Links} {x y : Nat → EvalM Value} (h : S.Sim k L Value.Linked x y) :
    S.Sim k L Same x y := by
  intro m n hm hL
  refine EndAlike.andThen (fun _ o => o) (fun _ o => o) (h m n hm hL) ?_ ?_ ?_
    (fun _ => rfl) (fun _ => rfl)
  · intro v w m' n' hm' hL' hv
    obtain ⟨nodes, hlinks⟩ := hS.links m' n'
    rw [hlinks] at hv
    exact .done hm' hL' (Value.linked_equal.mp hv)
  · intro f m' n' hm' hL'
    exact .failed f hm' hL'
  · intro f m' _ hf
    exact absurd hf (hS.lost f)

/-- A fault that both computations end with is the same answer. -/
theorem Sim.attempt {L : Links} {α : Type} {x y : Nat → EvalM α} (h : S.Sim k L Same x y) :
    S.Sim k L Same (fun i => EvalM.attempt (x i)) (fun i => EvalM.attempt (y i)) := by
  intro m n hm hL
  refine EndAlike.andThen (fun _ o => o.attempt) (fun _ o => o.attempt)
    (h m n hm hL) ?_ ?_ ?_ (fun _ => rfl) (fun _ => rfl)
  · intro a b m' n' hm' hL' hab
    exact .done hm' hL' (congrArg Except.ok hab)
  · intro f m' n' hm' hL'
    exact .done hm' hL' rfl
  · intro f m' _ hf
    exact absurd hf (hS.lost f)

variable (h : S.Interps k (fun _ => True) (fun _ => ip) (fun _ => ip'))
include h

/-- The step: a job. -/
theorem Interps.job {nodes : Literal → Nat → Prop} {job : Job} {L : Links} (hL : .equal nodes ≤ L)
    (hjob : job.Known L) : S.Sim k L Same (fun _ => job.run ip) (fun _ => job.run ip') := by
  have hscope (scope : Nat) : L.frames scope scope := hL.frames rfl
  apply Sim.same hS
  cases job with
  | visit scope e => exact h.visit (hscope scope) ⟨trivial, hjob⟩
  | program scope p =>
    obtain ⟨root⟩ := p
    cases root with
    | none => exact Sim.pure fun _ _ => Value.linked_zero _
    | some root =>
      have hvisit := h.visit (hscope scope) ⟨trivial, hjob root rfl⟩
      exact Sim.dumpScope (hscope scope) (h.debug 0 0) hvisit
  | text scope source => exact h.evalText (hscope scope) source
  | call scope f args =>
    have hf : f.Linked L f := f.linked_self (fun scope => hscope scope) hjob
    have hargs : Value.AllLinked L args args := (Value.allLinked_equal.mpr rfl).mono hL
    exact h.invoke (hscope scope) hf (hS.admits f) hargs

/-- The run: jobs one after the other. -/
theorem Interps.session {nodes : Literal → Nat → Prop} {jobs : List Job} {L : Links}
    (hL : .equal nodes ≤ L) (hjobs : ∀ job ∈ jobs, job.Known L) :
    S.Sim k L Same (fun _ => Job.session ip jobs) (fun _ => Job.session ip' jobs) := by
  induction jobs generalizing L with
  | nil => exact Sim.pure fun _ _ => rfl
  | cons job jobs ih =>
    obtain ⟨hjob, hjobs⟩ := List.forall_mem_cons.mp hjobs
    refine Sim.bind (Sim.attempt hS (h.job hS hL hjob)) fun L₁ h₁ answer answer' hanswer => ?_
    have hrest := ih (hL.trans h₁) fun job hmem => (hjobs job hmem).mono h₁
    refine Sim.bind hrest fun L₂ h₂ answers answers' hanswers => ?_
    exact Sim.pure fun _ _ => congrArg₂ List.cons hanswer hanswers

end Session

end Simulation

end ExprLang
