import ExprLang.Proofs.Simulation.Identical
import Mathlib.Data.ENat.Basic

/-!
# The number of open calls

Evaluation counts the calls that are open and refuses to open more than the limit. The count is
right at every point of a run (`Eval.visit_depth`), and the limit can be seen only by running into
it (`Eval.visit_of_allowance_le`).
-/

namespace ExprLang

namespace Outcome

variable {α : Type}

/-- Raises an alarm if the machine is not as it should be at the end. -/
def guarded (ok : Machine → Bool) (alarm : Fault) : Outcome α → Outcome α
  | .done a m => if ok m then .done a m else .failed alarm m
  | .failed f m => if ok m then .failed f m else .failed alarm m
  | .outOfFuel => .outOfFuel

theorem withDepth_eq_self {o : Outcome α} {depth : Nat} (h : ∀ m ∈ o.machine?, m.depth = depth) :
    o.withDepth depth = o := by
  cases o with
  | done a m => rw [withDepth, ← h m rfl]
  | failed f m => rw [withDepth, ← h m rfl]
  | outOfFuel => rfl

end Outcome

namespace EvalM

variable {α : Type}

/-- Raises an alarm if the machine is not as it should be before a computation or after it. -/
def guarded (ok : Machine → Bool) (alarm : Fault) (x : EvalM α) : EvalM α := fun m =>
  if ok m then (x m).guarded ok alarm else .failed alarm m

end EvalM

namespace Simulation

variable {S : Simulation} {k : Nat} {L : Links} {α β : Type} {A : Links → α → β → Prop}
  {x : Nat → EvalM α} {y : Nat → EvalM β}

/-- A guard that never finds anything may be left out. -/
theorem Sim.guarded {ok : Machine → Bool} (hok : ∀ m n, S.Machines k m n → ok n = true)
    (alarm : Fault) (h : S.Sim k L A x y) :
    S.Sim k L A x (fun i => EvalM.guarded ok alarm (y i)) := by
  intro m n hm hL
  have hstart (y : EvalM β) : EvalM.guarded ok alarm y n = (y n).guarded ok alarm :=
    if_pos (hok m n hm)
  simp only [hstart]
  refine EndAlike.andThen (fun _ o => o) (fun _ o => o.guarded ok alarm) (h m n hm hL) ?_ ?_ ?_
    (fun _ => rfl) (fun _ => rfl)
  · intro a b m' n' hm' hL' hab
    rw [Outcome.guarded, if_pos (hok m' n' hm')]
    exact .done hm' hL' hab
  · intro f m' n' hm' hL'
    rw [Outcome.guarded, if_pos (hok m' n' hm')]
    exact .failed f hm' hL'
  · intro f m' _ hf
    exact .lost m' hf

end Simulation

namespace Eval

/-! ## The count is right -/

/-- Watches a run. An alarm is raised if `ok` fails of the number of open calls and of the machine,
    before or after a visit, right after a call is opened or right before it is closed. Which calls
    are refused is told by the number of open calls alone, whatever the machine has counted. -/
def Monitor.watching (ok : Nat → Machine → Bool) (refusal : Nat → Option Fault) (alarm : Fault) :
    Monitor where
  around := fun calls x => EvalM.guarded (ok calls) alarm x
  opening := fun calls x =>
    match refusal calls with
    | some fault => EvalM.fail fault
    | none => EvalM.nested none (EvalM.guarded (ok (calls + 1)) alarm x)

section Watching

variable (limit? : Option Nat) (start : Nat)

/-- A count of open calls that is right, and within the limit if it was so at the start. -/
def CountsRight (calls depth : Nat) : Prop :=
  depth = start + calls ∧ ∀ limit, limit? = some limit → start ≤ limit → depth ≤ limit

/-- Whether a call is refused if it is to be opened while so many are open. -/
def refusalAt (calls : Nat) : Option Fault :=
  if EvalM.mayEnter limit? (start + calls) then none
  else some (.of (.depthExceeded (limit?.getD 0)))

variable {limit? start}

theorem countsRight_start : CountsRight limit? start 0 start :=
  ⟨rfl, fun _ _ h => h⟩

theorem CountsRight.opened {calls depth : Nat} (h : CountsRight limit? start calls depth)
    (hmay : EvalM.mayEnter limit? depth = true) :
    CountsRight limit? start (calls + 1) (depth + 1) := by
  refine ⟨by rw [h.1, Nat.add_assoc], ?_⟩
  intro limit hlimit _
  rw [hlimit, EvalM.mayEnter_some, decide_eq_true_iff] at hmay
  exact hmay

theorem CountsRight.closed {calls depth : Nat} (h : CountsRight limit? start (calls + 1) depth) :
    CountsRight limit? start calls (depth - 1) := by
  obtain ⟨heq, hle⟩ := h
  refine ⟨by omega, ?_⟩
  intro limit hlimit hstart
  exact Nat.le_trans (Nat.sub_le _ _) (hle limit hlimit hstart)

/-- As many calls as the limit are open exactly when one more would be refused. -/
theorem CountsRight.mayEnter_iff {limit calls depth : Nat}
    (h : CountsRight (some limit) start calls depth) (hstart : start ≤ limit) :
    EvalM.mayEnter (some limit) (start + calls) = true ↔ start + calls ≠ limit := by
  have hle := h.2 limit rfl hstart
  rw [h.1] at hle
  rw [EvalM.mayEnter_some, decide_eq_true_iff]
  omega

end Watching

/-- Two runs on identical stores that both count right. -/
abbrev counting (limit? : Option Nat) (start : Nat) : Simulation :=
  .identical (fun calls d d' => d' = d ∧ CountsRight limit? start calls d) False False

/-- Watching a run does nothing to it if the watch agrees with every count that is right. -/
theorem monitors_watching {engine : Engine} {start : Nat} {ok : Nat → Machine → Bool}
    {refusal : Nat → Option Fault}
    (hok : ∀ calls m, CountsRight engine.depthLimit? start calls m.depth → ok calls m = true)
    (hrefusal : ∀ calls depth, CountsRight engine.depthLimit? start calls depth →
      refusal calls = refusalAt engine.depthLimit? start calls) (alarm : Fault) :
    (counting engine.depthLimit? start).Monitors (.plain engine)
      (.watching ok refusal alarm) where
  around := by
    intro k L x y h
    refine h.guarded ?_ alarm
    intro m n hm
    obtain ⟨hsame, hcount⟩ := hm.depth
    exact hok k n (hsame ▸ hcount)
  opening := by
    intro k L x y h m n hm hL
    obtain ⟨hsame, hcount⟩ := hm.depth
    simp only [Monitor.plain, Monitor.watching, hrefusal k _ hcount, refusalAt, ← hcount.1]
    cases hmay : EvalM.mayEnter engine.depthLimit? m.depth with
    | false =>
      simp only [EvalM.nested_of_refused hmay]
      exact .failed _ hm hL
    | true =>
      simp only [EvalM.nested_of_mayEnter hmay]
      have hguarded := h.guarded (fun m' n' hm' => hok (k + 1) n' (hm'.depth.1 ▸ hm'.depth.2)) alarm
      refine Simulation.EndAlike.nested hguarded hm hL ⟨by rw [hsame], hcount.opened hmay⟩ ?_
      rintro d d' ⟨rfl, hd⟩
      exact ⟨rfl, hd.closed⟩

/-- Runs that count alike and right end in the same way, with as many open calls as at the start. -/
theorem eq_of_counting {limit? : Option Nat} {start : Nat} {L : Links} {o o' : Outcome Value}
    (h : (counting limit? start).EndAlike 0 L Value.Linked (fun _ => o) (fun _ => o')) :
    o' = o ∧ ∀ m ∈ o.machine?, m.depth = start := by
  have hdepth : ∀ m ∈ o.machine?, m.depth = start := by
    have hends := h.ends
    cases o with
    | done v m =>
      obtain ⟨w, n, -, hm, -⟩ := hends
      rintro _ ⟨rfl⟩
      exact hm.depth.2.1
    | failed f m =>
      obtain hlost | ⟨n, -, hm, -⟩ := hends
      · exact hlost.elim
      · rintro _ ⟨rfl⟩
        exact hm.depth.2.1
    | outOfFuel => exact nofun
  refine ⟨?_, hdepth⟩
  rw [h.eq_of_identical nofun (d := start) (fun n n' hn => hn.1.trans hn.2.1)]
  exact Outcome.withDepth_eq_self hdepth

/-- A watched run ends as the plain run does, with as many open calls as at the start. -/
theorem visitUnder_watching (engine : Engine) (m : Machine) (ok : Nat → Machine → Bool)
    (refusal : Nat → Option Fault)
    (hok : ∀ calls m', CountsRight engine.depthLimit? m.depth calls m'.depth → ok calls m' = true)
    (hrefusal : ∀ calls depth, CountsRight engine.depthLimit? m.depth calls depth →
      refusal calls = refusalAt engine.depthLimit? m.depth calls) (alarm : Fault)
    (fuel scope : Nat) (e : Expr) :
    visitUnder (.watching ok refusal alarm) engine fuel 0 scope e m = visit engine fuel scope e m ∧
      ∀ m' ∈ (visit engine fuel scope e m).machine?, m'.depth = m.depth := by
  have hsame : Links.same.frames scope scope := rfl
  have hstart : (counting engine.depthLimit? m.depth).Machines 0 m m :=
    Simulation.machines_identical ⟨rfl, countsRight_start⟩
  rw [← visitUnder_plain engine fuel 0]
  apply eq_of_counting (L := .same)
  exact (monitors_watching hok hrefusal alarm).visitUnder rfl rfl (.inl ⟨trivial, rfl⟩) hsame e
    (Links.same_knows e) m m
    hstart (le_refl _)

/-- However it ends, evaluation leaves the number of open calls as it found it. At every point of
    the run the number is that at the start and the calls opened since and still open, calls of
    closures and texts alike. If it is within the limit at the start it stays so, and a call is
    refused exactly if as many as the limit are open. -/
theorem visit_depth (engine : Engine) (fuel scope : Nat) (e : Expr) (m : Machine) :
    (∀ m' ∈ (visit engine fuel scope e m).machine?, m'.depth = m.depth) ∧
    (∀ alarm,
      visitUnder
        (.watching (fun calls m' => m'.depth = m.depth + calls)
          (refusalAt engine.depthLimit? m.depth) alarm)
        engine fuel 0 scope e m = visit engine fuel scope e m) ∧
    ∀ limit, engine.depthLimit? = some limit → m.depth ≤ limit → ∀ alarm,
      visitUnder
        (.watching (fun calls m' => m'.depth = m.depth + calls ∧ m'.depth ≤ limit)
          (fun calls =>
            if m.depth + calls = limit then some (.of (.depthExceeded limit)) else none) alarm)
        engine fuel 0 scope e m = visit engine fuel scope e m := by
  have hwatch := visitUnder_watching engine m
  refine ⟨?_, ?_, ?_⟩
  · -- any watch will do
    exact (hwatch (fun _ _ => true) _ (fun _ _ _ => rfl) (fun _ _ _ => rfl) (.of .unterminatedText)
      fuel scope e).2
  · intro alarm
    exact (hwatch _ _ (fun _ _ hcount => decide_eq_true hcount.1) (fun _ _ _ => rfl) alarm
      fuel scope e).1
  · intro limit hlimit hstart alarm
    refine (hwatch _ _ ?_ ?_ alarm fuel scope e).1
    · intro calls m' hcount
      exact decide_eq_true ⟨hcount.1, hcount.2 limit hlimit hstart⟩
    · intro calls depth hcount
      rw [hlimit] at hcount ⊢
      have hmay := hcount.mayEnter_iff hstart
      by_cases hfull : m.depth + calls = limit
      · rw [refusalAt, if_pos hfull, if_neg (fun h => hmay.mp h hfull), Option.getD_some]
      · rw [refusalAt, if_neg hfull, if_pos (hmay.mpr hfull)]

/-- A call without arguments. -/
def callOf (name : String) : Expr := .call (.name name .start) [] (name ++ "()") .start

/-- Two closures, the second of which calls the first. -/
def closurePair : Store where
  frames := #[⟨none, 0, .ofList [("INNER", .function 0), ("OUTER", .function 1)]⟩]
  functions := #[.closure (.exactly 0) (.ref (.name "ARG" .start)) 0,
    .closure (.exactly 0) (callOf "INNER") 0]

/-- The inner of two calls is refused, one being open. -/
theorem visit_depth_closurePair :
    (Engine.depthLimit? { maxDepth := 1 } = some 1 ∧ 0 ≤ 1) ∧
    ∀ alarm,
      visitUnder
        (.watching (fun calls m => m.depth = 0 + calls ∧ m.depth ≤ 1)
          (fun calls => if 0 + calls = 1 then some (.of (.depthExceeded 1)) else none) alarm)
        { maxDepth := 1 } 6 0 0 (callOf "OUTER") { store := closurePair } =
      visit { maxDepth := 1 } 6 0 (callOf "OUTER") { store := closurePair } :=
  ⟨by decide, (visit_depth _ 6 0 _ _).2.2 1 (by decide) (by decide)⟩

end Eval

/-! ## The limit is seen only by running into it -/

/-- How many more calls may be opened while so many are open. -/
def Engine.allowance (engine : Engine) (depth : Nat) : ℕ∞ :=
  match engine.depthLimit? with
  | none => ⊤
  | some limit => (limit - depth : Nat)

theorem Engine.mayEnter_iff (engine : Engine) (depth calls : Nat) :
    EvalM.mayEnter engine.depthLimit? (depth + calls) = true ↔ calls < engine.allowance depth := by
  unfold Engine.allowance
  cases engine.depthLimit? with
  | none => exact iff_of_true rfl (ENat.natCast_lt_top calls)
  | some limit =>
    rw [EvalM.mayEnter_some, decide_eq_true_iff, Nat.cast_lt]
    omega

/-- What is logged of a scope does not depend on the number of open calls. -/
theorem Engine.dumpScope_withDepth (engine : Engine) (scope depth : Nat) (m : Machine) :
    engine.dumpScope scope { m with depth := depth } =
      { engine.dumpScope scope m with depth := depth } := by
  unfold Engine.dumpScope
  split <;> rfl

namespace Eval

/-- Opens calls as the engine allows; a run that opens one more does not end. -/
def Monitor.strict (engine : Engine) : Monitor where
  around := fun _ x => x
  opening := fun _ x m =>
    if EvalM.mayEnter engine.depthLimit? m.depth then EvalM.nested none x m else .outOfFuel

/-- Evaluation ends without a call having been refused. -/
def EndsUnrefused (engine : Engine) (fuel scope : Nat) (e : Expr) (m : Machine) : Prop :=
  visitUnder (.strict engine) engine fuel 0 scope e m ≠ .outOfFuel

/-- Two runs on identical stores, so many calls having been opened in both. -/
abbrev abreast (depth depth' : Nat) (onFault : Prop) : Simulation :=
  .identical (fun calls d d' => d = depth + calls ∧ d' = depth' + calls) onFault True

theorem abreast_opened {depth depth' calls d d' : Nat}
    (h : d = depth + calls ∧ d' = depth' + calls) :
    d + 1 = depth + (calls + 1) ∧ d' + 1 = depth' + (calls + 1) := by
  omega

theorem abreast_closed {depth depth' calls d d' : Nat}
    (h : d = depth + (calls + 1) ∧ d' = depth' + (calls + 1)) :
    d - 1 = depth + calls ∧ d' - 1 = depth' + calls := by
  omega

/-- What is not refused is not refused either where no fewer calls are allowed. -/
theorem monitors_strict {engine engine' : Engine} {depth depth' : Nat}
    (hle : engine.allowance depth ≤ engine'.allowance depth') :
    (abreast depth depth' False).Monitors (.strict engine) (.plain engine') where
  around := id
  opening := by
    intro k L x y h m n hm hL
    obtain ⟨hd, hd'⟩ := hm.depth
    simp only [Monitor.strict, Monitor.plain]
    cases hmay : EvalM.mayEnter engine.depthLimit? m.depth with
    | true =>
      have hmay' : EvalM.mayEnter engine'.depthLimit? n.depth = true := by
        rw [hd, engine.mayEnter_iff] at hmay
        rw [hd', engine'.mayEnter_iff]
        exact lt_of_lt_of_le hmay hle
      simp only [EvalM.nested_of_mayEnter hmay']
      exact Simulation.EndAlike.nested h hm hL (abreast_opened hm.depth) abreast_closed
    | false => exact ⟨.outOfFuel, settles_const _, .inl trivial⟩

/-- A plain run that ends with a value has had no call refused. -/
theorem monitors_plain_strict (engine : Engine) (depth : Nat) :
    (abreast depth depth True).Monitors (.plain engine) (.strict engine) where
  around := id
  opening := by
    intro k L x y h m n hm hL
    obtain ⟨hd, hd'⟩ := hm.depth
    simp only [Monitor.strict, Monitor.plain]
    cases hmay : EvalM.mayEnter engine.depthLimit? m.depth with
    | true =>
      have hmay' : EvalM.mayEnter engine.depthLimit? n.depth = true := by
        rw [hd', ← hd, hmay]
      simp only [EvalM.nested_of_mayEnter hmay, hmay']
      exact Simulation.EndAlike.nested h hm hL (abreast_opened hm.depth) abreast_closed
    | false =>
      simp only [EvalM.nested_of_refused hmay]
      exact .lost m trivial

section Allowance

variable {engine : Engine} {fuel fuel' scope : Nat} {e : Expr} {m : Machine}

/-- A run without refused calls, and one with at least its allowance and fuel. -/
theorem visit_eq_of_endsUnrefused (maxDepth : Int) (depth : Nat)
    (hle : engine.allowance m.depth ≤ { engine with maxDepth := maxDepth }.allowance depth)
    (hfuel : fuel ≤ fuel') (hend : EndsUnrefused engine fuel scope e m) :
    visit { engine with maxDepth := maxDepth } fuel' scope e { m with depth := depth } =
      (visitUnder (.strict engine) engine fuel 0 scope e m).withDepth depth := by
  have hsame : Links.same.frames scope scope := rfl
  have hstart : (abreast m.depth depth False).Machines 0 m { m with depth := depth } :=
    Simulation.machines_identical ⟨rfl, rfl⟩
  rw [← visitUnder_plain _ fuel' 0]
  have hdebug : engine.debug = { engine with maxDepth := maxDepth }.debug := rfl
  have hsink : engine.brokenSink = { engine with maxDepth := maxDepth }.brokenSink := rfl
  have hends := (monitors_strict hle).visitUnder hdebug hsink (.inr ⟨trivial, hfuel⟩) hsame e
    (Links.same_knows e) m _
    hstart (le_refl _)
  exact hends.eq_of_identical (fun _ => hend) (fun _ _ h => h.2)

theorem endsUnrefused_of_done {v : Value} {m' : Machine}
    (h : visit engine fuel scope e m = .done v m') : EndsUnrefused engine fuel scope e m := by
  have hsame : Links.same.frames scope scope := rfl
  have hstart : (abreast m.depth m.depth True).Machines 0 m m :=
    Simulation.machines_identical ⟨rfl, rfl⟩
  have hends : (abreast m.depth m.depth True).EndAlike 0 .same Value.Linked
      (fun _ => visitUnder (.plain engine) engine fuel 0 scope e m)
      (fun _ => visitUnder (.strict engine) engine fuel 0 scope e m) :=
    (monitors_plain_strict engine m.depth).visitUnder rfl rfl (.inl ⟨trivial, rfl⟩) hsame e
      (Links.same_knows e) m m
      hstart (le_refl _)
  rw [visitUnder_plain, h] at hends
  obtain ⟨w, n, hdone, -⟩ := hends.ends
  rw [EndsUnrefused, hdone.eq_const]
  exact nofun

end Allowance

/-- Two evaluations that differ only in the limit and in the number of open calls, the second being
    allowed no fewer calls: if the first ends without a call having been refused, the second ends
    in the same way, with the same output and the same store. In particular a program that succeeds
    does so, with the same value, if the limit is raised or taken away. -/
theorem visit_of_allowance_le (engine : Engine) (maxDepth : Int) (scope : Nat) (m : Machine)
    (depth : Nat)
    (hle : engine.allowance m.depth ≤ { engine with maxDepth := maxDepth }.allowance depth) :
    (∀ e fuel fuel', fuel ≤ fuel' → EndsUnrefused engine fuel scope e m →
      visit engine fuel scope e m ≠ .outOfFuel ∧
        visit { engine with maxDepth := maxDepth } fuel' scope e { m with depth := depth } =
          (visit engine fuel scope e m).withDepth depth) ∧
    ∀ program fuel fuel' v m', fuel ≤ fuel' →
      engine.evaluate fuel program scope m = .done v m' →
        { engine with maxDepth := maxDepth }.evaluate fuel' program scope
            { m with depth := depth } =
          .done v { m' with depth := depth } := by
  have hvisit : ∀ e fuel fuel', fuel ≤ fuel' → EndsUnrefused engine fuel scope e m →
      visit engine fuel scope e m ≠ .outOfFuel ∧
        visit { engine with maxDepth := maxDepth } fuel' scope e { m with depth := depth } =
          (visit engine fuel scope e m).withDepth depth := by
    intro e fuel fuel' hfuel hend
    have hfirst := visit_eq_of_endsUnrefused engine.maxDepth m.depth le_rfl le_rfl hend
    have hsecond := visit_eq_of_endsUnrefused maxDepth depth hle hfuel hend
    rw [hfirst, hsecond, Outcome.withDepth_withDepth]
    exact ⟨Outcome.withDepth_ne_outOfFuel hend, rfl⟩
  refine ⟨hvisit, ?_⟩
  rintro ⟨root⟩ fuel fuel' v m' hfuel hdone
  cases root with
  | none =>
    cases hdone
    rfl
  | some root =>
    rw [Engine.evaluate_some] at hdone ⊢
    cases hroot : visit engine fuel scope root m with
    | done w n =>
      rw [hroot] at hdone
      cases hdone
      rw [(hvisit root fuel fuel' hfuel (endsUnrefused_of_done hroot)).2, hroot]
      exact congrArg (Outcome.done v) (engine.dumpScope_withDepth scope depth n)
    | failed f n => rw [hroot] at hdone; cases hdone
    | outOfFuel => rw [hroot] at hdone; cases hdone

/-- Two nested calls with an allowance of two, and without a limit though seven calls are open. -/
theorem visit_of_allowance_le_closurePair :
    (Engine.allowance { maxDepth := 2 } 0 ≤ Engine.allowance { maxDepth := -1 } 7 ∧
      EndsUnrefused { maxDepth := 2 } 6 0 (callOf "OUTER") { store := closurePair }) ∧
    visit { maxDepth := 2 } 6 0 (callOf "OUTER") { store := closurePair } ≠ .outOfFuel ∧
      visit { maxDepth := -1 } 8 0 (callOf "OUTER") { store := closurePair, depth := 7 } =
        (visit { maxDepth := 2 } 6 0 (callOf "OUTER") { store := closurePair }).withDepth 7 := by
  have hle : Engine.allowance { maxDepth := 2 } 0 ≤ Engine.allowance { maxDepth := -1 } 7 := le_top
  have hend : EndsUnrefused { maxDepth := 2 } 6 0 (callOf "OUTER") { store := closurePair } := by
    intro hout
    have hends : (visitUnder (.strict { maxDepth := 2 }) { maxDepth := 2 } 6 0 0 (callOf "OUTER")
        { store := closurePair }).machine?.isSome = true := by decide +kernel
    rw [hout] at hends
    cases hends
  have hboth := (visit_of_allowance_le { maxDepth := 2 } (-1) 0 { store := closurePair } 7 hle).1
  exact ⟨⟨hle, hend⟩, hboth _ 6 8 (by decide) hend⟩

end Eval

end ExprLang
