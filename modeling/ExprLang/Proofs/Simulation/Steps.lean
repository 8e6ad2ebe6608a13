import ExprLang.Proofs.Members
import ExprLang.Proofs.Parts
import ExprLang.Proofs.Simulation.Operations

/-!
# Steps of evaluation on related machines

Two interpreters whose visits and calls end alike have steps that end alike. The main result is
`Interps.expr`: one step of evaluation, over all forms of expressions. A step visits only the parts
of its expression.
-/

namespace ExprLang

/-- Whether a function may go on without end although no call is opened. A host function may, since
    it may ask for any other. -/
def Function.loops : Function → Bool
  | .form .loopWhile | .form .loopFor | .form (.lazy _) | .primitive (.eager _) => true
  | _ => false

namespace Engine

theorem dumpScope_store (engine : Engine) (scope : Nat) (m : Machine) :
    (engine.dumpScope scope m).store = m.store := by
  unfold dumpScope
  split <;> rfl

theorem dumpScope_nodes (engine : Engine) (scope : Nat) (m : Machine) :
    (engine.dumpScope scope m).nodes = m.nodes := by
  unfold dumpScope
  split <;> rfl

/-- A program is its tree, visited and then logged. -/
theorem evaluate_some (engine : Engine) (fuel : Nat) (root : Expr) (scope : Nat) (m : Machine) :
    engine.evaluate fuel ⟨some root⟩ scope m =
      (Eval.visit engine fuel scope root m).mapMachine (engine.dumpScope scope) := by
  unfold evaluate
  dsimp only
  cases Eval.visit engine fuel scope root m <;> rfl

end Engine

namespace Simulation

/-- Bounds on the rounds of loops: fixed ones that leave enough for the second run, or any if
    programs cannot get hold of a function that loops. -/
def Rounds (S : Simulation) (rounds rounds' : Nat → Nat) : Prop :=
  (∃ n n', (∀ i, rounds i = n) ∧ (∀ i, rounds' i = n') ∧ S.Enough n n') ∨
  (∀ f, S.admits f → f.loops = false) ∧
    (∀ᶠ i in Filter.atTop, 0 < rounds i) ∧ ∀ᶠ i in Filter.atTop, 0 < rounds' i

/-- An expression that interpreters may be asked to visit: it is one of some expressions, and its
    nodes are known. -/
structure Visits (visits : Expr → Prop) (L : Links) (e : Expr) : Prop where
  asked : visits e
  known : L.Knows e

theorem Visits.mono {visits : Expr → Prop} {L L' : Links} {e : Expr} (h : Visits visits L e)
    (hL : L ≤ L') : Visits visits L' e :=
  ⟨h.asked, h.known.mono hL⟩

theorem Visits.all_mono {visits : Expr → Prop} {L L' : Links} {es : List Expr}
    (h : ∀ e ∈ es, Visits visits L e) (hL : L ≤ L') : ∀ e ∈ es, Visits visits L' e :=
  fun e he => (h e he).mono hL

/-- Interpreters that end alike wherever a step of evaluation uses them, `k` calls being open. They
    are asked only to visit some of all expressions. -/
structure Interps (S : Simulation) (k : Nat) (visits : Expr → Prop) (ip ip' : Nat → Interp) :
    Prop where
  debug : ∀ i j, (ip i).engine.debug = (ip' j).engine.debug
  sink : ∀ i j, (ip i).engine.brokenSink = (ip' j).engine.brokenSink
  rounds : S.Rounds (fun i => (ip i).rounds) (fun i => (ip' i).rounds)
  parts : ∀ {target}, visits (.ref target) → ∀ e ∈ target.parts, visits e
  visit : ∀ {L : Links} {a b : Nat}, L.frames a b → ∀ {e}, Visits visits L e →
    S.Sim k L Value.Linked (fun i => (ip i).visit a e) (fun i => (ip' i).visit b e)
  enter : ∀ {L : Links} {x y : EvalM Nat},
    (∀ j, S.Sim j L Links.frames (fun _ => x) (fun _ => y)) → ∀ {body}, L.Knows body →
      S.Sim k L Value.Linked (fun i => (ip i).enter x body) (fun i => (ip' i).enter y body)

/-! ## Loops and frames -/

section Parts

variable {S : Simulation} {k : Nat} {L : Links}

/-- Loops whose tests and bodies end alike. -/
theorem Sim.loop {test test' : Nat → EvalM Bool} {body body' : Nat → EvalM Value}
    (htest : ∀ {L'}, L ≤ L' → S.Sim k L' Same test test')
    (hbody : ∀ {L'}, L ≤ L' → S.Sim k L' Value.Linked body body') {rounds rounds' : Nat}
    (hrounds : S.Enough rounds rounds') {L' : Links} (hL : L ≤ L') {v w : Value}
    (hv : v.Linked L' w) :
    S.Sim k L' Value.Linked (fun i => Eval.loop (test i) (body i) rounds v)
      (fun i => Eval.loop (test' i) (body' i) rounds' w) := by
  induction rounds generalizing rounds' L' v w with
  | zero =>
    rcases hrounds with ⟨hexhausts, rfl⟩ | ⟨hlost, -⟩
    · exact Sim.exhausted hexhausts
    · exact Sim.lostFuel hlost
  | succ rounds ih =>
    obtain ⟨rounds', rfl, hrounds'⟩ := hrounds.succ
    refine Sim.bind (htest hL) fun L₁ h₁ c c' hc => ?_
    cases hc
    cases c with
    | false => exact Sim.pure fun _ h₂ => hv.mono (h₁.trans h₂)
    | true =>
      refine Sim.bind (hbody (hL.trans h₁)) fun L₂ h₂ r r' hr => ?_
      exact ih hrounds' (hL.trans (h₁.trans h₂)) hr

/-- Loops over linked items. -/
theorem Sim.forEach {body body' : Nat → EvalM Value}
    (hbody : ∀ {L'}, L ≤ L' → S.Sim k L' Value.Linked body body') {items items' : List Value}
    (hitems : Value.AllLinked L items items') {L' : Links} (hL : L ≤ L') {x y : Slot}
    (hxy : x.Linked L' y) {v w : Value} (hv : v.Linked L' w) :
    S.Sim k L' Value.Linked (fun i => Eval.forEach (body i) x items v)
      (fun i => Eval.forEach (body' i) y items' w) := by
  unfold Value.AllLinked at hitems
  induction hitems generalizing L' x y v w with
  | nil => exact Sim.pure fun _ h₁ => hv.mono h₁
  | cons hitem _ ih =>
    refine Sim.bind (Sim.write hxy (hitem.mono hL)) fun L₁ h₁ x' y' hxy' => ?_
    refine Sim.bind (hbody (hL.trans h₁)) fun L₂ h₂ r r' hr => ?_
    exact ih (hL.trans (h₁.trans h₂)) (hxy'.mono h₂) hr

/-- The pairs of key and value made from linked members are linked. -/
theorem pairs_linked {R : StoreRel} (hR : R.Writes) {es fs : List (Text × Value)}
    (h : EntriesLinked L es fs) {s t : Store} (hst : R.rel s t) (hL : L ≤ R.links s t) :
    R.Keeps s t (Eval.pairs es s).2 (Eval.pairs fs t).2 ∧
      Value.AllLinked (R.links (Eval.pairs es s).2 (Eval.pairs fs t).2)
        (Eval.pairs es s).1 (Eval.pairs fs t).1 := by
  unfold EntriesLinked at h
  induction h generalizing s t with
  | nil => exact ⟨.refl hst, .nil⟩
  | @cons x y es fs hxy _ ih =>
    obtain ⟨key, v⟩ := x
    obtain ⟨key', w⟩ := y
    obtain ⟨rfl, hvw⟩ := hxy
    have hpair : Value.AllLinked (R.links s t) #[.text key, v].toList #[.text key, w].toList :=
      .cons (.text key) (.cons (hvw.mono hL) .nil)
    obtain ⟨hkeep, hnew⟩ := hR.newArray hst hpair
    obtain ⟨hkeep', hrest⟩ := ih hkeep.rel (hL.trans hkeep.links)
    exact ⟨hkeep.trans hkeep', .cons (hnew.mono hkeep'.links) hrest⟩

theorem Sim.items {v w : Value} (hv : v.Linked L w) :
    S.Sim k L Value.AllLinked (fun _ => Eval.items v) (fun _ => Eval.items w) := by
  unfold Eval.items
  cases hv with
  | array ha =>
    refine Sim.withStore fun table s t hst h₁ => ?_
    exact Sim.pure fun _ h₂ => ((S.reads _).elements hst (h₁.arrays ha)).mono h₂
  | object ho =>
    refine Sim.update fun table s t hst h₁ => ?_
    have hmembers := (S.reads _).members hst (h₁.objects ho)
    exact pairs_linked (S.writes _) hmembers.entries hst (le_refl _)
  | scope hf =>
    refine Sim.update fun table s t hst h₁ => ?_
    have hbindings := (S.reads _).bindings hst (h₁.frames hf)
    exact pairs_linked (S.writes _) hbindings.entries hst (le_refl _)
  | _ => exact Sim.failWith _

/-- The frames of a call in linked scopes with linked arguments. -/
theorem callFrame_linked {R : StoreRel} {admits : Function → Prop} (hR : R.Reads admits)
    (hW : R.Writes) {s t : Store} (hst : R.rel s t) {a b : Nat}
    (hab : (R.links s t).frames a b) {vs ws : List Value}
    (hvs : Value.AllLinked (R.links s t) vs ws) :
    R.Keeps s t (Interp.callFrame a vs s).2 (Interp.callFrame b ws t).2 ∧
      (R.links (Interp.callFrame a vs s).2 (Interp.callFrame b ws t).2).frames
        (Interp.callFrame a vs s).1 (Interp.callFrame b ws t).1 := by
  obtain ⟨keep₁, hframe⟩ := hW.newFrame hst hab
  have hargs : Value.AllLinked (R.links (s.newFrame a).2 (t.newFrame b).2) vs.toArray.toList
      ws.toArray.toList := hvs.mono keep₁.links
  obtain ⟨keep₂, harg⟩ := hW.newArray keep₁.rel hargs
  have keep₃ := hW.bind keep₂.rel (keep₂.links.frames hframe) harg "ARG"
  have hscope := (keep₁.trans (keep₂.trans keep₃)).links.frames hab
  have hroot := hR.root keep₃.rel hscope
  have hroot_eq := hR.root_eq keep₃.rel hscope
  have keep₄ := hW.bind keep₃.rel ((keep₂.trans keep₃).links.frames hframe) (.scope hroot)
    "GLOBAL"
  have hframe₄ := (keep₂.trans (keep₃.trans keep₄)).links.frames hframe
  have keep := keep₁.trans (keep₂.trans (keep₃.trans keep₄))
  simp only [Interp.callFrame]
  split
  · rename_i heq
    rw [if_pos (hroot_eq.mp heq)]
    exact ⟨keep, hframe₄⟩
  · rename_i hne
    rw [if_neg (mt hroot_eq.mpr hne)]
    have keep₅ := hW.bind keep₄.rel hframe₄ (.scope (keep₄.links.frames hscope)) "UPSCOPE"
    exact ⟨keep.trans keep₅, keep₅.links.frames hframe₄⟩

end Parts

/-! ## What hosts are given -/

/-- What two host functions have been given: the same expressions, linked values and linked slots.
    -/
structure Handed (visits : Expr → Prop) (L : Links) (given given' : Given) : Prop where
  args : given.args = given'.args
  visits : ∀ e ∈ given.args, Visits visits L e
  values : Value.AllLinked L given.values given'.values
  slots : List.Forall₂ (Slot.Linked L) given.slots given'.slots

/-- The same answer, and what is given by then. -/
def Told (visits : Expr → Prop) (L : Links) (p q : Except Cause (List Argument) × Given) : Prop :=
  p.1 = q.1 ∧ Handed visits L p.2 q.2

namespace Handed

variable {S : Simulation} {k : Nat} {visits : Expr → Prop} {L L' : Links} {given given' : Given}

theorem ofValues {vs ws : List Value} (hvs : Value.AllLinked L vs ws) :
    Handed visits L { values := vs } { values := ws } :=
  ⟨rfl, fun _ he => absurd he List.not_mem_nil, hvs, .nil⟩

theorem ofArgs {args : List Expr} (hargs : ∀ e ∈ args, Visits visits L e) :
    Handed visits L { args } { args } :=
  ⟨rfl, hargs, .nil, .nil⟩

theorem mono (h : Handed visits L given given') (hL : L ≤ L') : Handed visits L' given given' :=
  ⟨h.args, Visits.all_mono h.visits hL, h.values.mono hL, h.slots.imp fun _ _ hx => hx.mono hL⟩

theorem arg? (h : Handed visits L given given') (arg : Nat) :
    given'.args[arg]? = given.args[arg]? := by
  rw [h.args]

theorem operand (h : Handed visits L given given') (o : Operand) :
    (given.operand o).Linked L (given'.operand o) := by
  cases o with
  | scalar x => exact Value.linked_toValue L x
  | given place =>
    simp only [Given.operand, List.getD_eq_getElem?_getD]
    rcases rel_cases (rel_getElem? h.values place) with ⟨hx, hy⟩ | ⟨v, w, hx, hy, hv⟩
    · rw [hx, hy]
      exact Value.linked_zero L
    · rw [hx, hy]
      exact hv

theorem operands (h : Handed visits L given given') (os : List Operand) :
    Value.AllLinked L (os.map given.operand) (os.map given'.operand) := by
  refine List.forall₂_map_left_iff.mpr (List.forall₂_map_right_iff.mpr ?_)
  exact List.forall₂_same.mpr fun o _ => h.operand o

theorem hand (h : Handed visits L given given') {vs ws : List Value}
    (hvs : Value.AllLinked L vs ws) : Told visits L (given.hand vs) (given'.hand ws) :=
  ⟨congrArg Except.ok hvs.map_ofValue, h.args, h.visits, List.rel_append h.values hvs, h.slots⟩

theorem handOver (h : Handed visits L given given') {vs ws : List Value}
    (hvs : Value.AllLinked L vs ws) :
    S.Sim k L (Told visits) (fun _ => pure (given.hand vs)) (fun _ => pure (given'.hand ws)) :=
  Sim.pure fun _ h₁ => (h.mono h₁).hand (hvs.mono h₁)

theorem addSlot (h : Handed visits L given given') {x y : Slot} (hxy : x.Linked L y) :
    Handed visits L { given with slots := given.slots ++ [x] }
      { given' with slots := given'.slots ++ [y] } :=
  ⟨h.args, h.visits, h.values, List.rel_append h.slots (.cons hxy .nil)⟩

theorem setSlot (h : Handed visits L given given') (place : Nat) {x y : Slot}
    (hxy : x.Linked L y) :
    Handed visits L { given with slots := given.slots.set place x }
      { given' with slots := given'.slots.set place y } :=
  ⟨h.args, h.visits, h.values, forall₂_set h.slots place hxy⟩

end Handed

namespace Interps

variable {S : Simulation} {k : Nat} {visits : Expr → Prop} {L : Links} {ip ip' : Nat → Interp}
  {a b : Nat}
variable (h : S.Interps k visits ip ip') (hs : L.frames a b)
include h

theorem targetParts {target : Target} (ht : Visits visits L (.ref target)) :
    ∀ e ∈ target.parts, Visits visits L e :=
  fun e he => ⟨h.parts ht.asked e he, ht.known.part he⟩

include hs

theorem visitAll {es : List Expr} (hes : ∀ e ∈ es, Visits visits L e) :
    S.Sim k L Value.AllLinked (fun i => (ip i).visitAll a es) (fun i => (ip' i).visitAll b es) := by
  induction es generalizing L with
  | nil => exact Sim.pure fun _ _ => .nil
  | cons e es ih =>
    obtain ⟨he, hes⟩ := List.forall_mem_cons.mp hes
    refine Sim.bind (h.visit hs he) fun L₁ h₁ v w hv => ?_
    refine Sim.bind (ih (h₁.frames hs) (Visits.all_mono hes h₁)) fun L₂ h₂ vs ws hvs => ?_
    exact Sim.pure fun _ h₃ => .cons (hv.mono (h₂.trans h₃)) (hvs.mono h₃)

theorem visitEntries {es : List Entry} (hes : ∀ e ∈ es.map Entry.value, Visits visits L e) :
    S.Sim k L EntriesLinked (fun i => (ip i).visitEntries a es)
      (fun i => (ip' i).visitEntries b es) := by
  induction es generalizing L with
  | nil => exact Sim.pure fun _ _ => .nil
  | cons e es ih =>
    obtain ⟨key, _, value⟩ := e
    obtain ⟨he, hes⟩ := List.forall_mem_cons.mp hes
    refine Sim.bind (h.visit hs he) fun L₁ h₁ v w hv => ?_
    refine Sim.bind (ih (h₁.frames hs) (Visits.all_mono hes h₁)) fun L₂ h₂ vs ws hvs => ?_
    exact Sim.pure fun _ h₃ => .cons ⟨rfl, hv.mono (h₂.trans h₃)⟩
      (List.Forall₂.imp (fun _ _ hp => ⟨hp.1, hp.2.mono h₃⟩) hvs)

theorem resolve {target : Target} (ht : ∀ e ∈ target.parts, Visits visits L e) :
    S.Sim k L Slot.Linked (fun i => (ip i).resolve a target)
      (fun i => (ip' i).resolve b target) := by
  refine Sim.locating _ ?_
  cases target with
  | name name pos => exact Sim.pure fun _ h₁ => .name (h₁.frames hs) name
  | index base index pos =>
    obtain ⟨hbase, hrest⟩ := List.forall_mem_cons.mp ht
    refine Sim.bind (h.visit hs hbase) fun L₁ h₁ v w hv => ?_
    have hindex := h.visit (h₁.frames hs) ((hrest index List.mem_cons_self).mono h₁)
    refine Sim.bind hindex fun L₂ h₂ i j hij => ?_
    refine Sim.withStore fun table s t hst h₃ => ?_
    exact Sim.check fun _ h₄ =>
      ((S.reads _).slotOfIndex hst (hv.mono (h₂.trans h₃)) (hij.mono h₃)).imp
        fun _ _ hxy => hxy.mono h₄
  | member base name pos =>
    refine Sim.bind (h.visit hs (ht base List.mem_cons_self)) fun L₁ h₁ v w hv => ?_
    exact Sim.pure fun _ h₂ => Slot.linked_ofMember (hv.mono h₂) name

theorem resolveExpr {e : Expr} (he : Visits visits L e) :
    S.Sim k L Slot.Linked (fun i => (ip i).resolveExpr a e) (fun i => (ip' i).resolveExpr b e) := by
  unfold Interp.resolveExpr
  cases e with
  | ref target => exact h.resolve hs (h.targetParts he)
  | _ =>
    refine Sim.bind (h.visit hs he) fun L₁ h₁ v w hv => ?_
    exact Sim.pure fun _ h₂ => .immediate (hv.mono h₂)

theorem condition {e : Expr} (he : Visits visits L e) :
    S.Sim k L Same (fun i => (ip i).condition a e) (fun i => (ip' i).condition b e) := by
  refine Sim.bind (h.visit hs he) fun L₁ h₁ v w hv => ?_
  refine Sim.withStore fun table s t hst h₂ => ?_
  rw [(S.reads _).truthy hst (hv.mono h₂), hv.kind_eq]
  cases t.truthy? w with
  | some c => exact Sim.pure fun _ _ => rfl
  | none => exact Sim.fail _

theorem shortCircuit (op : LogicOp) {v w : Value} (hv : v.Linked L w) {right : Expr}
    (hr : Visits visits L right) :
    S.Sim k L Value.Linked (fun i => (ip i).shortCircuit a op v right)
      (fun i => (ip' i).shortCircuit b op w right) := by
  refine Sim.bind (Sim.truthOf _ hv) fun L₁ h₁ l l' hl => ?_
  cases hl
  have hright : S.Sim k L₁ Value.Linked
      (fun i => do
        let v ← (ip i).visit a right; let r ← Eval.truthOf op.spelling v; return .ofBool r)
      (fun i => do
        let v ← (ip' i).visit b right; let r ← Eval.truthOf op.spelling v; return .ofBool r) := by
    refine Sim.bind (h.visit (h₁.frames hs) (hr.mono h₁)) fun L₂ h₂ x y hxy => ?_
    refine Sim.bind (Sim.truthOf _ hxy) fun L₃ h₃ r r' hr => ?_
    cases hr
    exact Sim.pure fun _ _ => Value.linked_ofBool _ _
  cases op <;> cases l
  · exact Sim.pure fun _ _ => Value.linked_ofBool _ _
  · exact hright
  · exact hright
  · exact Sim.pure fun _ _ => Value.linked_ofBool _ _

theorem binary (op : BinaryOp) {left right : Expr} (hl : Visits visits L left)
    (hr : Visits visits L right) :
    S.Sim k L Value.Linked (fun i => (ip i).binary a op left right)
      (fun i => (ip' i).binary b op left right) := by
  refine Sim.bind (h.visit hs hl) fun L₁ h₁ v w hv => ?_
  have hright := h.visit (h₁.frames hs) (hr.mono h₁)
  cases op with
  | sequence => exact hright
  | logic op => exact h.shortCircuit (h₁.frames hs) op hv (hr.mono h₁)
  | arith op =>
    exact Sim.bind hright fun L₂ h₂ x y hxy => Sim.applyArith op (hv.mono h₂) hxy
  | order op =>
    refine Sim.bind hright fun L₂ h₂ x y hxy => ?_
    exact Sim.checkScalar (Eval.applyOrder_eq (hv.mono h₂) hxy op)
      fun _ => Eval.isScalar_of_applyOrder
  | equality op =>
    exact Sim.bind hright fun L₂ h₂ x y hxy => Sim.applyEquality op (hv.mono h₂) hxy

theorem stepTarget (op : StepOp) {target : Target} (ht : ∀ e ∈ target.parts, Visits visits L e) :
    S.Sim k L (fun L p q => p.1.Linked L q.1 ∧ p.2.Linked L q.2)
      (fun i => (ip i).stepTarget a op target) (fun i => (ip' i).stepTarget b op target) := by
  refine Sim.bind (h.resolve hs ht) fun L₁ h₁ x y hxy => ?_
  refine Sim.bind (Sim.read hxy) fun L₂ h₂ v w hv => ?_
  have hstep : S.Sim k L₂ Value.Linked (fun _ => EvalM.check (Eval.applyStep op v))
      (fun _ => EvalM.check (Eval.applyStep op w)) :=
    Sim.checkScalar (Eval.applyStep_eq hv op) fun _ => Eval.isScalar_of_applyStep
  refine Sim.bind hstep fun L₃ h₃ v' w' hv' => ?_
  refine Sim.bind (Sim.write (hxy.mono (h₂.trans h₃)) hv') fun L₄ h₄ _ _ _ => ?_
  exact Sim.pure fun _ h₅ => ⟨hv.mono (h₃.trans (h₄.trans h₅)), hv'.mono (h₄.trans h₅)⟩

theorem assign (op : AssignOp) {target : Target} {value : Expr}
    (ht : ∀ e ∈ target.parts, Visits visits L e) (hvalue : Visits visits L value) :
    S.Sim k L Value.Linked (fun i => (ip i).assign a op target value)
      (fun i => (ip' i).assign b op target value) := by
  refine Sim.bind (h.resolve hs ht) fun L₁ h₁ x y hxy => ?_
  have hs₁ := h₁.frames hs
  have hvalue₁ := hvalue.mono h₁
  have hstore {L₂ : Links} (h₂ : L₁ ≤ L₂) {v w : Value} (hv : v.Linked L₂ w) :
      S.Sim k L₂ Value.Linked (fun _ => do let _ ← Interp.write x v; return v)
        (fun _ => do let _ ← Interp.write y w; return w) := by
    refine Sim.bind (Sim.write (hxy.mono h₂) hv) fun L₃ h₃ _ _ _ => ?_
    exact Sim.pure fun _ h₄ => hv.mono (h₃.trans h₄)
  cases op with
  | plain => exact Sim.bind (h.visit hs₁ hvalue₁) fun L₂ h₂ v w hv => hstore h₂ hv
  | logic op =>
    refine Sim.bind (Sim.read hxy) fun L₂ h₂ v w hv => ?_
    exact Sim.bind (h.shortCircuit (h₂.frames hs₁) op hv (hvalue₁.mono h₂)) fun L₃ h₃ r r' hr =>
      hstore (h₂.trans h₃) hr
  | arith op =>
    refine Sim.bind (Sim.read hxy) fun L₂ h₂ v w hv => ?_
    refine Sim.bind (h.visit (h₂.frames hs₁) (hvalue₁.mono h₂)) fun L₃ h₃ r r' hr => ?_
    exact Sim.bind (Sim.applyArith op (hv.mono h₃) hr) fun L₄ h₄ u u' hu =>
      hstore (h₂.trans (h₃.trans h₄)) hu

/-! ## Forms -/

omit hs in
theorem choose : ∀ {args : List Expr} {L : Links}, (∀ e ∈ args, Visits visits L e) →
    L.frames a b →
      S.Sim k L Value.Linked (fun i => (ip i).choose a args) (fun i => (ip' i).choose b args)
  | [], _, _, _ => Sim.pure fun _ _ => Value.linked_zero _
  | [_], _, hargs, hs => h.visit hs (hargs _ List.mem_cons_self)
  | test :: branch :: rest, L, hargs, hs => by
    obtain ⟨htest, hargs⟩ := List.forall_mem_cons.mp hargs
    obtain ⟨hbranch, hrest⟩ := List.forall_mem_cons.mp hargs
    refine Sim.bind (h.condition hs htest) fun L₁ h₁ c c' hc => ?_
    cases hc
    cases c with
    | true => exact h.visit (h₁.frames hs) (hbranch.mono h₁)
    | false => exact choose (Visits.all_mono hrest h₁) (h₁.frames hs)

theorem loopEach {element container body : Expr} (helement : Visits visits L element)
    (hcontainer : Visits visits L container) (hbody : Visits visits L body) :
    S.Sim k L Value.Linked (fun i => (ip i).loopEach a element container body)
      (fun i => (ip' i).loopEach b element container body) := by
  unfold Interp.loopEach
  cases element with
  | ref target =>
    refine Sim.bind (h.resolve hs (h.targetParts helement)) fun L₁ h₁ x y hxy => ?_
    refine Sim.bind (h.visit (h₁.frames hs) (hcontainer.mono h₁)) fun L₂ h₂ v w hv => ?_
    refine Sim.bind (Sim.items hv) fun L₃ h₃ items items' hitems => ?_
    have hs₃ := (h₁.trans (h₂.trans h₃)).frames hs
    have hbody₃ := hbody.mono (h₁.trans (h₂.trans h₃))
    exact Sim.forEach (fun h₄ => h.visit (h₄.frames hs₃) (hbody₃.mono h₄)) hitems (le_refl _)
      (hxy.mono (h₂.trans h₃)) (Value.linked_zero _)
  | _ => exact Sim.fail _

theorem define {signature body : Expr} (hsignature : Visits visits L signature)
    (hbody : L.Knows body) :
    S.Sim k L Value.Linked (fun i => (ip i).define a signature body)
      (fun i => (ip' i).define b signature body) := by
  refine Sim.bind (h.visit hs hsignature) fun L₁ h₁ v w hv => ?_
  cases hv with
  | text sig =>
    dsimp only
    cases Arity.ofSignature sig.mended.toList with
    | ok arity =>
      exact Sim.update fun table s t hst h₂ =>
        (S.writes _).newClosure hst (h₂.frames (h₁.frames hs)) arity body
          (hbody.mono (h₁.trans h₂))
    | error c => exact Sim.failWith _
  | _ => exact Sim.failWith _

/-- A loop with a condition; programs that loop have fixed bounds on the rounds. -/
theorem loopWhile {f : Function} (hf : S.admits f) (hloops : f.loops = true) {test : Expr}
    (htest : Visits visits L test) {body body' : Nat → EvalM Value}
    (hbody : ∀ {L'}, L ≤ L' → S.Sim k L' Value.Linked body body') {L' : Links} (hL : L ≤ L') :
    S.Sim k L' Value.Linked
      (fun i => Eval.loop ((ip i).condition a test) (body i) (ip i).rounds .zero)
      (fun i => Eval.loop ((ip' i).condition b test) (body' i) (ip' i).rounds .zero) := by
  rcases h.rounds with ⟨n, n', hn, hn', henough⟩ | ⟨hloopless, -⟩
  · simp only [hn, hn']
    exact Sim.loop (fun h₁ => h.condition (h₁.frames hs) (htest.mono h₁)) hbody henough hL
      (Value.linked_zero _)
  · rw [hloopless f hf] at hloops
    cases hloops

/-! ## Host functions -/

section Host

variable {given given' : Given} (hgiven : Handed visits L given given')
  {invoke invoke' : Nat → Function → List Value → EvalM Value}
include hgiven

theorem answerVisit (arg : Nat) :
    S.Sim k L (Told visits) (fun i => (ip i).answer (invoke i) a given (.visit arg))
      (fun i => (ip' i).answer (invoke' i) b given' (.visit arg)) := by
  simp only [Interp.answer, hgiven.arg?]
  cases harg : given.args[arg]? with
  | none => exact hgiven.handOver .nil
  | some e =>
    have he := hgiven.visits e (List.mem_of_getElem? harg)
    exact Sim.bind (h.visit hs he) fun _ h₁ _ _ hv => (hgiven.mono h₁).handOver (.cons hv .nil)

theorem answerResolve (arg : Nat) :
    S.Sim k L (Told visits) (fun i => (ip i).answer (invoke i) a given (.resolve arg))
      (fun i => (ip' i).answer (invoke' i) b given' (.resolve arg)) := by
  simp only [Interp.answer, hgiven.arg?]
  cases harg : given.args[arg]? with
  | none => exact hgiven.handOver .nil
  | some e =>
    have he := hgiven.visits e (List.mem_of_getElem? harg)
    exact Sim.bind (h.resolveExpr hs he) fun _ h₁ _ _ hxy =>
      ((hgiven.mono h₁).addSlot hxy).handOver .nil

omit h hs in
theorem answerRead (place : Nat) :
    S.Sim k L (Told visits) (fun i => (ip i).answer (invoke i) a given (.read place))
      (fun i => (ip' i).answer (invoke' i) b given' (.read place)) := by
  simp only [Interp.answer]
  rcases rel_cases (rel_getElem? hgiven.slots place) with ⟨hx, hy⟩ | ⟨x, y, hx, hy, hxy⟩
  · rw [hx, hy]
    exact hgiven.handOver .nil
  · rw [hx, hy]
    refine Sim.withStore fun table s t hst h₁ => ?_
    have hread := (S.reads _).slotRead hst (hxy.mono h₁)
    revert hread
    generalize x.read s = p
    generalize y.read t = q
    rintro (hvw | cause)
    · exact (hgiven.mono h₁).handOver (.cons hvw .nil)
    · exact Sim.pure fun _ h₂ => ⟨rfl, hgiven.mono (h₁.trans h₂)⟩

omit h hs in
theorem answerWrite (place : Nat) (value : Operand) :
    S.Sim k L (Told visits) (fun i => (ip i).answer (invoke i) a given (.write place value))
      (fun i => (ip' i).answer (invoke' i) b given' (.write place value)) := by
  simp only [Interp.answer]
  rcases rel_cases (rel_getElem? hgiven.slots place) with ⟨hx, hy⟩ | ⟨x, y, hx, hy, hxy⟩
  · rw [hx, hy]
    exact hgiven.handOver .nil
  · rw [hx, hy]
    have hv := hgiven.operand value
    exact Sim.bind (Sim.write hxy hv) fun _ h₁ _ _ hxy' =>
      ((hgiven.mono h₁).setSlot place hxy').handOver (.cons (hv.mono h₁) .nil)

omit h hs in
theorem answerTruth (value : Operand) :
    S.Sim k L (Told visits) (fun i => (ip i).answer (invoke i) a given (.truth value))
      (fun i => (ip' i).answer (invoke' i) b given' (.truth value)) := by
  refine Sim.withStore fun table s t hst h₁ => ?_
  have hv := hgiven.operand value
  rw [(S.reads _).truthy hst (hv.mono h₁), hv.kind_eq]
  cases t.truthy? (given'.operand value) with
  | some c => exact (hgiven.mono h₁).handOver (.cons (Value.linked_ofBool _ c) .nil)
  | none => exact Sim.failWith _

omit h hs in
theorem answerElements (place : Nat) :
    S.Sim k L (Told visits) (fun i => (ip i).answer (invoke i) a given (.elements place))
      (fun i => (ip' i).answer (invoke' i) b given' (.elements place)) := by
  simp only [Interp.answer]
  rcases rel_cases (rel_getElem? hgiven.values place) with ⟨hx, hy⟩ | ⟨v, w, hx, hy, hv⟩
  · rw [hx, hy]
    exact hgiven.handOver .nil
  · rw [hx, hy]
    cases hv with
    | array hab =>
      exact Sim.withStore fun table s t hst h₁ =>
        (hgiven.mono h₁).handOver ((S.reads _).elements hst (h₁.arrays hab))
    | _ => exact hgiven.handOver .nil

variable (hinvoke : ∀ {L' : Links}, L ≤ L' → ∀ {f g : Function}, f.Linked L' g → S.admits f →
    ∀ {vs ws : List Value}, Value.AllLinked L' vs ws →
      S.Sim k L' Value.Linked (fun i => invoke i f vs) (fun i => invoke' i g ws))
include hinvoke

omit h hs in
theorem answerInvoke (place : Nat) (args : List Operand) :
    S.Sim k L (Told visits) (fun i => (ip i).answer (invoke i) a given (.invoke place args))
      (fun i => (ip' i).answer (invoke' i) b given' (.invoke place args)) := by
  simp only [Interp.answer]
  rcases rel_cases (rel_getElem? hgiven.values place) with ⟨hx, hy⟩ | ⟨v, w, hx, hy, hv⟩
  · rw [hx, hy]
    exact hgiven.handOver .nil
  · rw [hx, hy]
    cases hv with
    | function hid =>
      refine Sim.withStore fun table s t hst h₁ => ?_
      have hgiven₁ := hgiven.mono h₁
      rcases rel_cases ((S.reads _).function hst (h₁.functions hid)) with
        ⟨hf, hg⟩ | ⟨f, g, hf, hg, hlinked, hadmit⟩
      · rw [hf, hg]
        exact hgiven₁.handOver .nil
      · rw [hf, hg]
        exact Sim.bind (hinvoke h₁ hlinked hadmit (hgiven₁.operands args)) fun _ h₂ _ _ hv =>
          (hgiven₁.mono h₂).handOver (.cons hv .nil)
    | _ => exact hgiven.handOver .nil

theorem answer (request : Request) :
    S.Sim k L (Told visits) (fun i => (ip i).answer (invoke i) a given request)
      (fun i => (ip' i).answer (invoke' i) b given' request) := by
  cases request with
  | scope => exact hgiven.handOver (.cons (.scope hs) .nil)
  | visit arg => exact h.answerVisit hs hgiven arg
  | resolve arg => exact h.answerResolve hs hgiven arg
  | read place => exact answerRead hgiven place
  | write place value => exact answerWrite hgiven place value
  | truth value => exact answerTruth hgiven value
  | elements place => exact answerElements hgiven place
  | array elems =>
    exact Sim.bind (Sim.newArray (hgiven.operands elems)) fun _ h₁ _ _ hv =>
      (hgiven.mono h₁).handOver (.cons hv .nil)
  | invoke place args => exact answerInvoke hgiven hinvoke place args

/-- Host functions see no cells, so they ask for the same in both runs. -/
theorem script {program : Script} :
    S.Sim k L Value.Linked (fun i => (ip i).script (invoke i) a program given)
      (fun i => (ip' i).script (invoke' i) b program given') := by
  induction program generalizing L given given' with
  | give value => exact Sim.pure fun _ h₁ => (hgiven.operand value).mono h₁
  | fail fault => exact Sim.fail fault
  | ask request next ih =>
    refine Sim.bind (h.answer hs hgiven hinvoke request) fun L₁ h₁ p q hpq => ?_
    obtain ⟨answer, given₁⟩ := p
    obtain ⟨answer', given₁'⟩ := q
    obtain ⟨rfl, hgiven₁⟩ := hpq
    exact ih answer (h₁.frames hs) hgiven₁ fun h₂ => hinvoke (h₁.trans h₂)

end Host

/-! ## Calls -/

omit hs in
theorem print {vs ws : List Value} (hvs : Value.AllLinked L vs ws) :
    S.Sim k L Value.Linked (fun i => (ip i).print vs) (fun i => (ip' i).print ws) := by
  refine Sim.withStore fun table s t hst hL => ?_
  have hsink (i : Nat) : (ip i).engine.brokenSink = (ip' 0).engine.brokenSink := h.sink i 0
  have hsink' (i : Nat) : (ip' i).engine.brokenSink = (ip' 0).engine.brokenSink :=
    (h.sink 0 i).symm.trans (h.sink 0 0)
  simp only [hsink, hsink']
  cases (ip' 0).engine.brokenSink with
  | some why => exact Sim.failWith _
  | none =>
    rw [(S.reads _).texts hst (hvs.mono hL), List.Forall₂.length_eq hvs]
    refine Sim.bind (Sim.print _) fun _ _ _ _ _ => ?_
    exact Sim.pure fun _ _ => Value.linked_ofNat _ _

omit hs in
/-- Compiled programs are the same, with nodes that are known. -/
theorem compile (source : String) :
    S.Sim k L (fun L p q => p = q ∧ ∀ root ∈ p.root, L.Knows root)
      (fun i => (ip i).engine.compile source) (fun i => (ip' i).engine.compile source) := by
  have hlog (i : Nat) : (ip i).engine.compileLog source = (ip' 0).engine.compileLog source := by
    simp only [Engine.compileLog, h.debug i 0]
  have hlog' (i : Nat) : (ip' i).engine.compileLog source = (ip' 0).engine.compileLog source := by
    simp only [Engine.compileLog, ← h.debug 0 i, h.debug 0 0]
  unfold Engine.compile
  simp only [hlog, hlog']
  refine Sim.bind (Sim.logAll _) fun _ _ _ _ _ => ?_
  refine Sim.bind (Sim.lift _) fun _ _ program program' hp => ?_
  cases hp
  exact Sim.number program

theorem evalText (source : String) :
    S.Sim k L Value.Linked (fun i => (ip i).evalText a source)
      (fun i => (ip' i).evalText b source) := by
  refine Sim.bind (h.compile source) fun L₁ h₁ program program' hp => ?_
  obtain ⟨rfl, hknown⟩ := hp
  revert hknown
  cases program.root with
  | none => exact fun _ => Sim.pure fun _ _ => Value.linked_zero _
  | some root =>
    intro hknown
    refine Sim.withOwnLiterals fun h₂ => h.enter (fun j => ?_) ((hknown root rfl).mono h₂)
    exact Sim.pure fun _ h₃ => (h₁.trans (h₂.trans h₃)).frames hs

omit hs in
theorem callClosure {body : Expr} (hbody : L.Knows body) {c d : Nat} (hcd : L.frames c d)
    {vs ws : List Value} (hvs : Value.AllLinked L vs ws) :
    S.Sim k L Value.Linked (fun i => (ip i).callClosure body c vs)
      (fun i => (ip' i).callClosure body d ws) := by
  refine h.enter (fun j => ?_) hbody
  exact Sim.update fun table s t hst h₁ =>
    callFrame_linked (S.reads _) (S.writes _) hst (h₁.frames hcd) (hvs.mono h₁)

/-- Calls of a primitive. Only those of the host call other functions on behalf of their caller. -/
theorem callPrimitive {again again' : Nat → Nat → Function → List Value → EvalM Value}
    (hagain : ∀ {e}, S.admits (.primitive (.eager e)) → ∀ {L' : Links}, L ≤ L' →
      ∀ {f g : Function}, f.Linked L' g → S.admits f →
        ∀ {vs ws : List Value}, Value.AllLinked L' vs ws →
          S.Sim k L' Value.Linked (fun i => again i a f vs) (fun i => again' i b g ws))
    {op : Primitive} (hop : S.admits (.primitive op)) {vs ws : List Value}
    (hvs : Value.AllLinked L vs ws) :
    S.Sim k L Value.Linked (fun i => (ip i).callPrimitive (again i) a op vs)
      (fun i => (ip' i).callPrimitive (again' i) b op ws) := by
  have hcount : S.Sim k L Value.Linked
      (fun _ => (EvalM.failWith (.argumentCount op.arity vs.length) : EvalM Value))
      (fun _ => EvalM.failWith (.argumentCount op.arity ws.length)) := by
    rw [List.Forall₂.length_eq hvs]
    exact Sim.failWith _
  cases op with
  | whole mode =>
    cases hvs with
    | nil => exact hcount
    | cons hv rest =>
      cases rest with
      | nil => exact Sim.checkScalar (Eval.whole_eq hv mode) fun _ => Eval.isScalar_of_whole
      | cons _ _ => exact hcount
  | sqrt =>
    cases hvs with
    | nil => exact hcount
    | cons hv rest =>
      cases rest with
      | nil =>
        simp only [Interp.callPrimitive, Eval.toDouble?_eq hv, hv.kind_eq]
        split
        · exact Sim.pure fun _ _ => .double _
        · exact Sim.failWith _
      | cons _ _ => exact hcount
  | len =>
    cases hvs with
    | nil => exact hcount
    | cons hv rest =>
      cases rest with
      | nil =>
        exact Sim.withStore fun table s t hst h₁ =>
          Sim.checkScalar ((S.reads _).len hst (hv.mono h₁)) fun _ => Eval.isScalar_of_len
      | cons _ _ => exact hcount
  | print => exact h.print hvs
  | eval =>
    cases hvs with
    | nil => exact hcount
    | cons hv rest =>
      cases rest with
      | nil =>
        cases hv with
        | text source => exact h.evalText hs source.mended
        | _ => exact Sim.failWith _
      | cons _ _ => exact hcount
  | native f =>
    -- the host sees no cells, so linked arguments are the same to it
    simp only [Interp.callPrimitive, hvs.map_ofValue]
    refine Sim.bind (Sim.lift _) fun _ _ x x' hx => ?_
    cases hx
    exact Sim.pure fun _ _ => Value.linked_toValue _ x
  | eager f =>
    simp only [Interp.callPrimitive, hvs.map_ofValue]
    exact h.script hs (.ofValues hvs) (hagain hop)
  | clear =>
    refine Sim.bind (Sim.print _) fun _ _ _ _ _ => ?_
    exact Sim.pure fun _ _ => Value.linked_zero _
  | dump =>
    refine Sim.withStore fun table s t hst h₁ => ?_
    have hrepr : s.repr (.scope a) = t.repr (.scope b) :=
      (S.reads _).text hst (.scope (h₁.frames hs))
    rw [hrepr]
    refine Sim.bind (Sim.print _) fun _ _ _ _ _ => ?_
    exact Sim.pure fun _ _ => Value.linked_zero _

theorem invokeWith (again again' : Nat → Nat → Function → List Value → EvalM Value)
    (hagain : ∀ {e}, S.admits (.primitive (.eager e)) → ∀ {L' : Links}, L ≤ L' →
      ∀ {f g : Function}, f.Linked L' g → S.admits f →
        ∀ {vs ws : List Value}, Value.AllLinked L' vs ws →
          S.Sim k L' Value.Linked (fun i => again i a f vs) (fun i => again' i b g ws))
    {f g : Function} (hfg : f.Linked L g) (hf : S.admits f) {vs ws : List Value}
    (hvs : Value.AllLinked L vs ws) :
    S.Sim k L Value.Linked (fun i => (ip i).invokeWith (again i) a f vs)
      (fun i => (ip' i).invokeWith (again' i) b g ws) := by
  cases hfg with
  | form form => exact Sim.failWith _
  | primitive op =>
    simp only [Interp.invokeWith, List.Forall₂.length_eq hvs]
    split
    · exact h.callPrimitive hs hagain hf hvs
    · exact Sim.failWith _
  | closure arity hbody hcd =>
    simp only [Interp.invokeWith, List.Forall₂.length_eq hvs]
    split
    · exact h.callClosure hbody hcd hvs
    · exact Sim.failWith _

theorem invokeUpTo {fuel fuel' : Nat} (hfuel : S.Enough fuel fuel') {f g : Function}
    (hfg : f.Linked L g) (hf : S.admits f) {vs ws : List Value} (hvs : Value.AllLinked L vs ws) :
    S.Sim k L Value.Linked (fun i => (ip i).invokeUpTo fuel a f vs)
      (fun i => (ip' i).invokeUpTo fuel' b g ws) := by
  induction fuel generalizing fuel' L f g vs ws with
  | zero =>
    rcases hfuel with ⟨hexhausts, rfl⟩ | ⟨hlost, -⟩
    · exact Sim.exhausted hexhausts
    · exact Sim.lostFuel hlost
  | succ fuel ih =>
    obtain ⟨fuel', rfl, hfuel'⟩ := hfuel.succ
    exact h.invokeWith hs _ _ (fun _ _ h₁ _ _ hfg' hf' _ _ hvs' =>
      ih (h₁.frames hs) hfuel' hfg' hf' hvs') hfg hf hvs

theorem invoke {f g : Function} (hfg : f.Linked L g) (hf : S.admits f) {vs ws : List Value}
    (hvs : Value.AllLinked L vs ws) :
    S.Sim k L Value.Linked (fun i => (ip i).invoke a f vs) (fun i => (ip' i).invoke b g ws) := by
  unfold Interp.invoke
  rcases h.rounds with ⟨n, n', hn, hn', henough⟩ | ⟨hloopless, hpos, hpos'⟩
  · simp only [hn, hn']
    exact h.invokeUpTo hs henough hfg hf hvs
  · -- without functions that loop the first call is the only one
    have hstep := h.invokeWith hs (fun i => (ip i).invokeUpTo ((ip i).rounds - 1))
      (fun i => (ip' i).invokeUpTo ((ip' i).rounds - 1))
      (fun happly => by cases hloopless _ happly) hfg hf hvs
    refine hstep.congr ?_ ?_
    · filter_upwards [hpos] with i hi
      obtain ⟨r, hr⟩ := Nat.exists_eq_succ_of_ne_zero (Nat.ne_of_gt hi)
      rw [hr]
      rfl
    · filter_upwards [hpos'] with i hi
      obtain ⟨r, hr⟩ := Nat.exists_eq_succ_of_ne_zero (Nat.ne_of_gt hi)
      rw [hr]
      rfl

theorem callForm {form : Form} (hform : S.admits (.form form)) {args : List Expr}
    (hargs : ∀ e ∈ args, Visits visits L e) :
    S.Sim k L Value.Linked (fun i => (ip i).callForm a form args)
      (fun i => (ip' i).callForm b form args) := by
  fun_cases Interp.callForm (ip 0) a form args with
  | case1 => exact h.choose hargs hs
  | case2 test body =>
    exact h.loopWhile hs hform rfl (hargs test (by simp))
      (fun h₁ => h.visit (h₁.frames hs) ((hargs body (by simp)).mono h₁)) (le_refl _)
  | case3 start test increment body =>
    refine Sim.bind (h.visit hs (hargs start (by simp))) fun L₁ h₁ _ _ _ => ?_
    refine h.loopWhile hs hform rfl (hargs test (by simp)) (fun h₂ => ?_) h₁
    have hbody := (hargs body (by simp)).mono h₂
    have hincrement := (hargs increment (by simp)).mono h₂
    refine Sim.bind (h.visit (h₂.frames hs) hbody) fun L₃ h₃ _ _ _ => ?_
    exact h.visit ((h₂.trans h₃).frames hs) (hincrement.mono h₃)
  | case4 target container body =>
    exact h.loopEach hs (hargs target (by simp)) (hargs container (by simp)) (hargs body (by simp))
  | case5 signature body =>
    exact h.define hs (hargs signature (by simp)) (hargs body (by simp)).known
  | case6 f =>
    exact h.script hs (.ofArgs hargs) fun h₁ _ _ hfg hadmit _ _ hvs =>
      h.invoke (h₁.frames hs) hfg hadmit hvs
  | case7 =>
    have hcount (ip : Interp) (scope : Nat) : ip.callForm scope form args =
        EvalM.failWith (.argumentCount form.arity args.length) := by
      rw [Interp.callForm]
      all_goals assumption
    simp only [hcount]
    exact Sim.failWith _

theorem call {callee : Target} (hcallee : Visits visits L (.ref callee)) {args : List Expr}
    (hargs : ∀ e ∈ args, Visits visits L e) (site : CallSite) :
    S.Sim k L Value.Linked (fun i => (ip i).call a callee args site)
      (fun i => (ip' i).call b callee args site) := by
  refine Sim.bind (h.visit hs hcallee) fun L₁ h₁ v w hv => ?_
  refine Sim.withStore fun table s t hst h₂ => ?_
  have hs₂ := (h₁.trans h₂).frames hs
  have hargs₂ := Visits.all_mono hargs (h₁.trans h₂)
  cases hv with
  | function hfg =>
    dsimp only
    rcases rel_cases ((S.reads _).function hst (h₂.functions hfg)) with
      ⟨hx, hy⟩ | ⟨f, g, hx, hy, hlinked, hadmit⟩
    · rw [hx, hy]
      exact Sim.failWith _
    · rw [hx, hy]
      have hinvoke : S.Sim k ((S.stores table).links s t) Value.Linked
          (fun i => do
            let vs ← (ip i).visitAll a args; EvalM.inCall site ((ip i).invoke a f vs))
          (fun i => do
            let vs ← (ip' i).visitAll b args; EvalM.inCall site ((ip' i).invoke b g vs)) := by
        refine Sim.bind (h.visitAll hs₂ hargs₂) fun L₃ h₃ vs ws hvs => ?_
        exact Sim.inCall site (h.invoke (h₃.frames hs₂) (hlinked.mono h₃) hadmit hvs)
      cases hlinked with
      | form form =>
        refine Sim.inCall site ?_
        split
        · exact h.callForm hs₂ hadmit hargs₂
        · exact Sim.failWith _
      | primitive op => exact hinvoke
      | closure arity hbody hcd => exact hinvoke
  | _ => exact Sim.failWith _

/-- One step of evaluation. -/
theorem expr {e : Expr} (hasked : ∀ e' ∈ e.parts, visits e') (hknown : L.Knows e) :
    S.Sim k L Value.Linked (fun i => (ip i).expr a e) (fun i => (ip' i).expr b e) := by
  have he : ∀ e' ∈ e.parts, Visits visits L e' := fun e' he' =>
    ⟨hasked e' he', hknown.part he'⟩
  cases e with
  | literal node kind lexeme pos => exact Sim.literal (hknown _ List.mem_cons_self)
  | ref target => exact Sim.bind (h.resolve hs he) fun _ _ _ _ hxy => Sim.read hxy
  | call callee args text pos =>
    obtain ⟨hcallee, hargs⟩ := List.forall_mem_cons.mp he
    exact h.call hs hcallee hargs ⟨text, pos⟩
  | list elems pos =>
    exact Sim.bind (h.visitAll hs he) fun _ _ vs ws hvs => Sim.newArray hvs
  | object entries pos =>
    refine Sim.bind (h.visitEntries hs he) fun L₁ h₁ vs ws hvs => ?_
    refine Sim.update fun table s t hst h₂ => (S.writes _).newObject hst ?_ ?_
    · exact Members.Linked.mono (Members.Linked.ofList hvs) h₂
    · exact .ofList vs
  | group inner pos => exact h.visit hs (he inner List.mem_cons_self)
  | unary op operand pos =>
    exact Sim.bind (h.visit hs (he operand List.mem_cons_self)) fun _ _ _ _ hv =>
      Sim.applyUnary op hv
  | stepBefore op target pos =>
    refine Sim.bind (h.stepTarget hs op he) fun L₁ h₁ p q hpq => ?_
    exact Sim.pure fun _ h₂ => hpq.2.mono h₂
  | stepAfter op target pos =>
    refine Sim.bind (h.stepTarget hs op he) fun L₁ h₁ p q hpq => ?_
    exact Sim.pure fun _ h₂ => hpq.1.mono h₂
  | binary op left right pos =>
    obtain ⟨hleft, hrest⟩ := List.forall_mem_cons.mp he
    exact h.binary hs op hleft (hrest right List.mem_cons_self)
  | conditional test ifTrue ifFalse pos =>
    obtain ⟨htest, hbranches⟩ := List.forall_mem_cons.mp he
    obtain ⟨htrue, hrest⟩ := List.forall_mem_cons.mp hbranches
    refine Sim.bind (h.condition hs htest) fun L₁ h₁ c c' hc => ?_
    cases hc
    cases c with
    | true => exact h.visit (h₁.frames hs) (htrue.mono h₁)
    | false => exact h.visit (h₁.frames hs) ((hrest ifFalse List.mem_cons_self).mono h₁)
  | assign op target value pos =>
    obtain ⟨hvalue, htarget⟩ := List.forall_mem_cons.mp he
    exact h.assign hs op htarget hvalue

end Interps

/-! ## Programs -/

theorem Machines.dumpScope {S : Simulation} {k : Nat} {m n : Machine} (hm : S.Machines k m n)
    {engine engine' : Engine} (hdebug : engine.debug = engine'.debug) {a b : Nat}
    (hab : (S.links m n).frames a b) :
    S.Machines k (engine.dumpScope a m) (engine'.dumpScope b n) := by
  have hrepr : m.store.repr (.scope a) = n.store.repr (.scope b) :=
    (S.reads _).text hm.store (.scope hab)
  unfold Engine.dumpScope
  rw [hdebug]
  split
  · refine ⟨hm.store, hm.out, ?_, hm.nodes, hm.literals, hm.depth⟩
    rw [hm.log, hrepr]
  · exact hm

theorem links_dumpScope (S : Simulation) (engine engine' : Engine) (a b : Nat) (m n : Machine) :
    S.links (engine.dumpScope a m) (engine'.dumpScope b n) = S.links m n := by
  simp only [links, Engine.dumpScope_store, Engine.dumpScope_nodes]

/-- Computations whose scopes are logged at the end. -/
theorem Sim.dumpScope {S : Simulation} {k : Nat} {L : Links} {engine engine' : Engine} {a b : Nat}
    (hab : L.frames a b) (hdebug : engine.debug = engine'.debug) {x y : Nat → EvalM Value}
    (h : S.Sim k L Value.Linked x y) :
    S.Sim k L Value.Linked (fun i m => (x i m).mapMachine (engine.dumpScope a))
      (fun i n => (y i n).mapMachine (engine'.dumpScope b)) := by
  intro m n hm hL
  refine EndAlike.andThen (fun _ o => o.mapMachine (engine.dumpScope a))
    (fun _ o => o.mapMachine (engine'.dumpScope b)) (h m n hm hL) ?_ ?_ ?_
    (fun _ => rfl) (fun _ => rfl)
  · intro v w m' n' hm' hL' hv
    have hdump := hm'.dumpScope hdebug (hL'.frames hab)
    refine .done hdump ?_ ?_
    · rwa [links_dumpScope]
    · rwa [links_dumpScope]
  · intro f m' n' hm' hL'
    refine .failed f (hm'.dumpScope hdebug (hL'.frames hab)) ?_
    rwa [links_dumpScope]
  · intro f m' _ hf
    exact .lost _ hf

/-- Whole programs, if the visits of their trees end alike. -/
theorem Sim.evaluate {S : Simulation} {k : Nat} {L : Links} {engine engine' : Engine} {a b : Nat}
    (hab : L.frames a b) (hdebug : engine.debug = engine'.debug) {program : Program}
    {fuel fuel' : Nat → Nat}
    (hvisit : ∀ root, S.Sim k L Value.Linked (fun i => Eval.visit engine (fuel i) a root)
      (fun i => Eval.visit engine' (fuel' i) b root)) :
    S.Sim k L Value.Linked (fun i => engine.evaluate (fuel i) program a)
      (fun i => engine'.evaluate (fuel' i) program b) := by
  obtain ⟨root⟩ := program
  cases root with
  | none => exact Sim.pure fun _ _ => Value.linked_zero _
  | some root =>
    have hdump := Sim.dumpScope hab hdebug (hvisit root)
    simp only [← Engine.evaluate_some] at hdump
    exact hdump

end Simulation

end ExprLang
