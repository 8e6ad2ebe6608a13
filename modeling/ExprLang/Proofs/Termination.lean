import ExprLang.Proofs.Reachability
import ExprLang.Proofs.Simulation.Region

/-!
# Termination

Under a limit on nested calls a program ends, with a value or with a fault, if no function that
loops can be reached from the scope it runs in (`Engine.evaluate_ends`). Closures and texts bring
trees that are not known beforehand, so the measure has two parts: a call leaves fewer calls to
open, whatever it runs, and a step that opens none goes on with parts of its expression.
-/

namespace ExprLang

/-! ## Fuel -/

theorem Settles.of_succ {α : Type} {os : Nat → Outcome α} {o : Outcome α}
    (h : Settles (fun i => os (i + 1)) o) : Settles os o := by
  obtain ⟨enough, hsettled⟩ := Filter.eventually_atTop.mp h
  refine Filter.eventually_atTop.mpr ⟨enough + 1, fun i hi => ?_⟩
  obtain ⟨j, rfl⟩ : ∃ j, i = j + 1 := ⟨i - 1, by omega⟩
  exact hsettled j (by omega)

namespace Simulation

/-- It does not matter for what computations come to that they get one more of fuel. -/
theorem Sim.of_succ {S : Simulation} {k : Nat} {L : Links} {α β : Type} {A : Links → α → β → Prop}
    {x : Nat → EvalM α} {y : Nat → EvalM β}
    (h : S.Sim k L A (fun i => x (i + 1)) (fun i => y (i + 1))) : S.Sim k L A x y := by
  intro m n hm hL
  obtain ⟨o, ho, hend⟩ := h m n hm hL
  exact ⟨o, .of_succ ho, hend.of_settles fun hsettle => .of_succ hsettle⟩

variable {S : Simulation} {k : Nat} {engine : Engine}

/-- Visits settle if the calls that are opened in them do. -/
theorem Sim.visit_of_enter (hloops : ∀ f, S.admits f → f.loops = false)
    (henter : ∀ {L : Links} {x y : EvalM Nat},
      (∀ j, S.Sim j L Links.frames (fun _ => x) (fun _ => y)) → ∀ body, L.Knows body →
        S.Sim k L Value.Linked
          (fun i => (Interp.ofVisit engine i (Eval.visit engine i)).enter x body)
          (fun i => (Interp.ofVisit engine i (Eval.visit engine i)).enter y body))
    {L : Links} {a b : Nat} (hab : L.frames a b) (e : Expr) (he : L.Knows e) :
    S.Sim k L Value.Linked (fun i => Eval.visit engine i a e)
      (fun i => Eval.visit engine i b e) := by
  induction hsize : sizeOf e using Nat.strong_induction_on generalizing e L a b with
  | _ size ih =>
    subst hsize
    -- a step asks for visits of parts only, and these are smaller
    have hip : S.Interps k (fun part => sizeOf part < sizeOf e)
        (fun i => Interp.ofVisit engine i (Eval.visit engine i))
        (fun i => Interp.ofVisit engine i (Eval.visit engine i)) :=
      { debug := fun _ _ => rfl
        sink := fun _ _ => rfl
        rounds := .inr ⟨hloops, Filter.eventually_gt_atTop 0, Filter.eventually_gt_atTop 0⟩
        parts := fun hlt part hpart =>
          (Expr.sizeOf_lt_of_mem_parts (e := .ref _) hpart).trans hlt
        visit := fun hscope part hpart => ih _ hpart.asked hscope part hpart.known rfl
        enter := fun hready body hbody => henter hready body hbody }
    apply Sim.of_succ
    exact Sim.locating e.pos (hip.expr hab (fun _ => Expr.sizeOf_lt_of_mem_parts) he)

/-! ## Programs -/

section Region

variable {L : Links} {hL : L.Ordered} {ok : Function → Prop}
  {hclosure : ∀ arity body scope, ok (.closure arity body scope)} {start : Store} {depth : Nat}

/-- Visits settle under a limit on calls, by how many more calls may be opened. -/
theorem region_visit {limit : Nat} (hlimit : engine.depthLimit? = some limit)
    (hloops : ∀ f, ok f → f.loops = false) {L' : Links} {a b : Nat} (hab : L'.frames a b)
    (e : Expr) (he : L'.Knows e) :
    (region hL ok hclosure start depth False).Sim k L' Value.Linked
      (fun i => Eval.visit engine i a e) (fun i => Eval.visit engine i b e) := by
  induction hrest : limit - (depth + k) using Nat.strong_induction_on
    generalizing k L' a b e with
  | _ rest ih =>
    refine Sim.visit_of_enter hloops ?_ hab e he
    intro L₁ x y hready body hbody
    refine inStep_nested engine.depthLimit? fun hmay => ?_
    -- the body may be any tree, but one call fewer is left to open in it
    have hopen : depth + k < limit := by simpa [hlimit, EvalM.mayEnter_some] using hmay
    refine Sim.bind (hready (k + 1)) fun L₂ hle a' b' hscope => ?_
    exact ih (limit - (depth + (k + 1))) (by omega) hscope body (hbody.mono hle) rfl

/-- Runs that cannot end for want of fuel settle on a value or on a fault. -/
theorem EndAlike.settles_of_region {L' : Links} {os os' : Nat → Outcome Value}
    (h : (region hL ok hclosure start depth False).EndAlike k L' Value.Linked os os') :
    (∃ v m, Settles os (.done v m)) ∨ ∃ f m, Settles os (.failed f m) := by
  obtain ⟨o, hsettle, hend⟩ := h
  cases o with
  | done v m => exact .inl ⟨v, m, hsettle⟩
  | failed f m => exact .inr ⟨f, m, hsettle⟩
  | outOfFuel =>
    rcases hend with hlost | ⟨hexhausts, -⟩
    · exact hlost.elim
    · exact hexhausts.elim

end Region

end Simulation

namespace Engine

theorem exists_depthLimit? {engine : Engine} (h : 0 ≤ engine.maxDepth) :
    ∃ limit, engine.depthLimit? = some limit := by
  unfold depthLimit?
  split
  · exact ⟨_, rfl⟩
  · rw [if_neg (by omega)]
    exact ⟨_, rfl⟩

/-- With a limit on nested calls a program ends with a value or with a fault, and more fuel does not
    change that, if no function that loops can be reached from its scope. -/
theorem evaluate_ends (engine : Engine) (program : Program) (scope : Nat) (s : Store)
    (nodes : Array Literal) (hlimit : 0 ≤ engine.maxDepth)
    (hloops : ∀ id f, s.Reaches (.frame scope) (.function id) → s.functions[id]? = some f →
      f.loops = false) :
    (∃ v m, ∃ enough, ∀ fuel ≥ enough,
      engine.evaluate fuel program scope { store := s, nodes } = .done v m) ∨
    ∃ f m, ∃ enough, ∀ fuel ≥ enough,
      engine.evaluate fuel program scope { store := s, nodes } = .failed f m := by
  obtain ⟨limit, hsome⟩ := exists_depthLimit? hlimit
  have hself : ∀ c, s.Reaches (.frame scope) c →
      (Links.across (s.Reaches (.frame scope)) s s).Pairs c c := fun _ => Store.pairs_across_self
  have hstores : s.Linked (.across (s.Reaches (.frame scope)) s s) (fun f => f.loops = false) s :=
    Store.linked_across (s.closed_reaches _) (fun _ _ => rfl) hself hloops
  cases hself _ .start with
  | frame hab =>
    let S := Simulation.region (Links.across_ordered (s.Reaches (.frame scope)) s s)
      (fun f => f.loops = false) (fun _ _ _ => rfl) s 0 False
    have hsim : S.Sim 0 _ Value.Linked (fun fuel => engine.evaluate fuel program scope)
        (fun fuel => engine.evaluate fuel program scope) :=
      Simulation.Sim.evaluate hab rfl fun root =>
        Simulation.region_visit hsome (fun _ hf => hf) hab root fun _ _ => trivial
    rcases (hsim _ _ (Simulation.region_start hstores nodes) le_rfl).settles_of_region with
      ⟨v, m, hsettle⟩ | ⟨f, m, hsettle⟩
    · exact .inl ⟨v, m, Filter.eventually_atTop.mp hsettle⟩
    · exact .inr ⟨f, m, Filter.eventually_atTop.mp hsettle⟩

/-- The literals of the closure below. -/
def againNodes : Array Literal := #[⟨.int, "1"⟩, ⟨.int, "2"⟩, ⟨.text, "\"AGAIN()\""⟩]

/-- A closure that, for each of two items, runs a text that calls the closure. -/
def reentrant : Store where
  frames := #[⟨none, 0,
    .ofList [("AGAIN", .function 0), ("EVAL", .function 1), ("FOREACH", .function 2)]⟩]
  functions := #[
    .closure (.exactly 0)
      (.call (.name "FOREACH" .start)
        [.ref (.name "X" .start),
          .list [.literal 0 .int "1" .start, .literal 1 .int "2" .start] .start,
          .call (.name "EVAL" .start) [.literal 2 .text "\"AGAIN()\"" .start] "EVAL(...)" .start]
        "FOREACH(...)" .start) 0,
    .primitive .eval,
    .form .loopEach]

def againCall : Program := ⟨some (.call (.name "AGAIN" .start) [] "AGAIN()" .start)⟩

theorem mem_of_reaches_reentrant {c : Cell} (h : reentrant.Reaches (.frame 0) c) :
    c ∈ [Cell.frame 0, .function 0, .function 1, .function 2] := by
  refine h.mem (R := (· ∈ [Cell.frame 0, .function 0, .function 1, .function 2])) ?_
    List.mem_cons_self
  intro c content hc hcontent d hd
  simp only [List.mem_cons, List.not_mem_nil, or_false] at hc
  rcases hc with rfl | rfl | rfl | rfl <;> cases hcontent <;> revert d <;> decide

/-- The calls of the closure by itself end, though only at the default limit. -/
theorem evaluate_ends_reentrant :
    (0 ≤ Engine.maxDepth {} ∧
      ∀ id f, reentrant.Reaches (.frame 0) (.function id) → reentrant.functions[id]? = some f →
        f.loops = false) ∧
    ((∃ v m, ∃ enough, ∀ fuel ≥ enough,
      Engine.evaluate {} fuel againCall 0 { store := reentrant, nodes := againNodes } =
        .done v m) ∨
    ∃ f m, ∃ enough, ∀ fuel ≥ enough,
      Engine.evaluate {} fuel againCall 0 { store := reentrant, nodes := againNodes } =
        .failed f m) := by
  have hloops : ∀ id f, reentrant.Reaches (.frame 0) (.function id) →
      reentrant.functions[id]? = some f → f.loops = false := by
    intro id f hreach hf
    have hmem := mem_of_reaches_reentrant hreach
    simp only [List.mem_cons, Cell.function.injEq, reduceCtorEq, List.not_mem_nil, or_false,
      false_or] at hmem
    rcases hmem with rfl | rfl | rfl <;> cases hf <;> rfl
  exact ⟨⟨by decide, hloops⟩, evaluate_ends {} againCall 0 reentrant _ (by decide) hloops⟩

end Engine

end ExprLang
