import ExprLang.Proofs.CallDepth
import ExprLang.Proofs.Denotation
import ExprLang.Proofs.Sessions

/-!
# Remembered literals

A machine remembers the values of the literal nodes it has met. Evaluation that builds the value of
a literal anew at every visit (`Eval.visitAnew`) has the same answers, the same output and the same
store, in every session, and what is remembered of a node is at all times what would be built for it
(`Engine.session_remembered`).

This rests on the numbers of nodes: if all code that can be run is listed in one table, no two nodes
share a number unless they are the same literal. Compilation lists what it reads (`Engine.compile`),
and no step of evaluation makes code of its own.
-/

namespace ExprLang

/-! ## What is remembered -/

/-- Every cell stands for itself, and the nodes of a table are known. -/
abbrev Links.listed (table : Array Literal) : Links := .equal fun l node => table[node]? = some l

section Decidable

variable (L : Links) [∀ l node, Decidable (L.nodes l node)]

instance (e : Expr) : Decidable (L.Knows e) :=
  inferInstanceAs (Decidable (∀ x ∈ e.nodes, L.nodes x.1 x.2))

instance (f : Function) : Decidable (L.KnowsIn f) :=
  match f with
  | .primitive _ => .isTrue trivial
  | .form _ => .isTrue trivial
  | .closure _ body _ => inferInstanceAs (Decidable (L.Knows body))

instance (job : Job) : Decidable (job.Known L) :=
  match job with
  | .visit _ e => inferInstanceAs (Decidable (L.Knows e))
  | .program _ p => inferInstanceAs (Decidable (∀ root ∈ p.root, L.Knows root))
  | .text _ _ => .isTrue trivial
  | .call _ f _ => inferInstanceAs (Decidable (L.KnowsIn f))

instance (table : Array Literal) (l : Literal) (node : Nat) :
    Decidable ((Links.listed table).nodes l node) :=
  inferInstanceAs (Decidable (table[node]? = some l))

end Decidable

/-- The nodes of all closures of a store are listed. -/
def Store.Listed (table : Array Literal) (s : Store) : Prop :=
  ∀ f ∈ s.functions, (Links.listed table).KnowsIn f

instance (table : Array Literal) (s : Store) : Decidable (s.Listed table) :=
  inferInstanceAs (Decidable (∀ f ∈ s.functions, _))

/-- A machine whose closures are made of listed nodes, and which remembers of each node what is
    built for it. -/
structure Machine.Coherent (m : Machine) : Prop where
  closures : m.store.Listed m.nodes
  literals : Literal.AllBuilt m.nodes m.literals

instance (m : Machine) : Decidable m.Coherent :=
  decidable_of_iff (m.store.Listed m.nodes ∧ Literal.AllBuilt m.nodes m.literals)
    ⟨fun h => ⟨h.1, h.2⟩, fun h => ⟨h.closures, h.literals⟩⟩

theorem Links.listed_le_iff {table table' : Array Literal} :
    Links.listed table ≤ Links.listed table' ↔ Literal.Extends table table' :=
  ⟨fun h _ _ hl => h.nodes hl, fun h => ⟨id, id, id, id, fun hl => h _ _ hl⟩⟩

/-- Evaluation makes closures of listed nodes only. -/
theorem Store.lasting_listed (table : Array Literal) :
    Store.Lasting (Links.listed table).nodes (Store.Listed table) where
  known := fun h f hf => h f hf
  newArray := fun h _ => h
  newObject := fun h _ => h
  newClosure := by
    intro s h arity body scope hbody f hf
    rcases Array.mem_push.mp hf with hmem | rfl
    · exact h f hmem
    · exact hbody
  newFrame := fun h _ => h
  bind := fun h _ _ _ => h
  setElement := fun h _ _ _ => h
  setMember := fun h _ _ _ => h

/-! ## Building every literal anew -/

/-- One step of evaluation that builds the value of a literal without remembering it. -/
def Interp.exprAnew (ip : Interp) (scope : Nat) (e : Expr) : EvalM Value :=
  match e with
  | .literal _ kind lexeme _ => EvalM.check (Literal.value ⟨kind, lexeme⟩)
  | e => ip.expr scope e

/-- The value of an expression in a scope, all literals being built anew at each visit. -/
def Eval.visitAnew (engine : Engine) : Nat → Nat → Expr → EvalM Value
  | 0, _, _ => EvalM.exhausted
  | fuel + 1, scope, e =>
    EvalM.locating e.pos
      ((Interp.ofVisit engine fuel (visitAnew engine fuel)).exprAnew scope e)

/-- The steps of evaluation that builds all literals anew. -/
def Engine.interpAnew (engine : Engine) (fuel : Nat) : Interp :=
  Interp.ofVisit engine fuel (Eval.visitAnew engine fuel)

namespace Eval

/-- Opens calls as the engine allows. An alarm is raised if a machine remembers of a node another
    value than the one that is built for it, or has a closure of nodes that are not listed: before
    or after a visit, right after a call is opened or right before it is closed. -/
def Monitor.inspecting (engine : Engine) (alarm : Fault) : Monitor where
  around := fun _ x => EvalM.guarded (fun m => m.Coherent) alarm x
  opening := fun _ x =>
    EvalM.nested engine.depthLimit? (EvalM.guarded (fun m => m.Coherent) alarm x)

end Eval

/-- The steps of evaluation whose memory of literals is inspected. -/
def Engine.interpInspected (engine : Engine) (alarm : Fault) (fuel : Nat) : Interp :=
  (Eval.Monitor.inspecting engine alarm).interp engine fuel
    (Eval.visitUnder (.inspecting engine alarm) engine fuel) 0

namespace Outcome

variable {α : Type}

/-- An outcome whose machine remembers no literals. -/
def forgetful (o : Outcome α) : Outcome α := o.mapMachine fun m => { m with literals := [] }

end Outcome

namespace Simulation

/-- Runs that agree in all but the literals they remember, from `depth` open calls on. -/
def rebuilding (depth : Nat) : Simulation where
  stores := fun table => .lasting (Links.listed table).nodes (Store.Listed table)
  admits := fun _ => True
  reads := fun table => StoreRel.lasting_reads (Store.lasting_listed table)
  writes := fun table => StoreRel.lasting_writes (Store.lasting_listed table)
  literals := fun table ks ls => Literal.AllBuilt table ks ∧ Literal.AllBuilt table ls
  literals_nil := fun _ => ⟨.nil, .nil⟩
  recalled := fun h hl => by rw [h.1.recalled hl, h.2.recalled hl]
  recalled_linked := fun _ _ _ => Value.linked_equal.mpr rfl
  remember := fun h hl => ⟨h.1.remember hl, h.2.remember hl⟩
  numbered := by
    rintro table table' s _ htable ⟨rfl, hs⟩
    have hle : Links.listed table ≤ Links.listed table' := Links.listed_le_iff.mpr htable
    exact ⟨⟨rfl, fun f hf => (hs f hf).mono hle⟩, hle⟩
  numbered_known := fun _ hl => hl
  literals_mono := fun hle h =>
    ⟨h.1.extend (Links.listed_le_iff.mp hle), h.2.extend (Links.listed_le_iff.mp hle)⟩
  depth := fun calls d d' => d' = d ∧ d = depth + calls
  lost := fun _ => False
  lost_located := fun h _ => h
  lost_leaving := fun h _ => h
  exhausts := True

variable {depth k : Nat} {L : Links}

theorem rebuilding_sameCells : (rebuilding depth).SameCells :=
  ⟨fun _ _ => ⟨_, rfl⟩, fun _ => trivial, fun _ => id⟩

/-- Runs whose numbers of open calls are equal open and refuse calls at the same time. -/
theorem rebuilding_nested (limit? : Option Nat) {x y : Nat → EvalM Value}
    (h : (rebuilding depth).Sim (k + 1) L Value.Linked x y) :
    (rebuilding depth).Sim k L Value.Linked (fun i => EvalM.nested limit? (x i))
      (fun i => EvalM.nested limit? (y i)) :=
  Sim.nested (fun _ _ _ => Iff.rfl) limit? fun _ => h

/-- What is remembered of a node is what is built. -/
theorem rebuilding_literal {l : Literal} {node : Nat} (hknown : L.nodes l node) :
    (rebuilding depth).Sim k L Value.Linked (fun _ => Eval.literal node l)
      (fun _ => EvalM.check l.value) := by
  intro m n hm hL
  obtain ⟨hbuilt, hbuilt'⟩ := hm.literals
  have hl : m.nodes[node]? = some l := hL.nodes hknown
  simp only [Eval.literal_eq, hbuilt.recalled hl]
  cases l.value with
  | ok v =>
    have hm' : (rebuilding depth).Machines k
        { m with literals := l.remember node m.literals } n :=
      ⟨hm.store, hm.out, hm.log, hm.nodes, ⟨hbuilt.remember hl, hbuilt'⟩, hm.depth⟩
    exact .done hm' hL (Value.linked_equal.mpr rfl)
  | error cause => exact .failed _ hm hL

/-- The step: visits that end alike with and without a memory make steps that do. -/
theorem rebuilding_interps {engine : Engine} {fuel : Nat}
    (hvisit : ∀ {k : Nat} {L : Links} {a b : Nat}, L.frames a b → ∀ e, L.Knows e →
      (rebuilding depth).Sim k L Value.Linked (fun _ => Eval.visit engine fuel a e)
        (fun _ => Eval.visitAnew engine fuel b e)) :
    (rebuilding depth).Interps k (fun _ => True) (fun _ => engine.interp fuel)
      (fun _ => engine.interpAnew fuel) where
  debug := fun _ _ => rfl
  sink := fun _ _ => rfl
  rounds := .inl ⟨fuel, fuel, fun _ => rfl, fun _ => rfl, .inl ⟨trivial, rfl⟩⟩
  parts := fun _ _ _ => trivial
  visit := fun hs e he => hvisit hs e he.known
  enter := fun hready body hbody =>
    rebuilding_nested _ (Sim.bind (hready (k + 1)) fun _ hle _ _ hscope =>
      hvisit hscope body (hbody.mono hle))

/-- The run: visits end alike with and without a memory. -/
theorem rebuilding_visit (engine : Engine) (fuel : Nat) {a b : Nat} (hab : L.frames a b)
    (e : Expr) (he : L.Knows e) :
    (rebuilding depth).Sim k L Value.Linked (fun _ => Eval.visit engine fuel a e)
      (fun _ => Eval.visitAnew engine fuel b e) := by
  induction fuel generalizing k L a b e with
  | zero => exact Sim.exhausted trivial
  | succ fuel ih =>
    refine Sim.locating e.pos ?_
    cases e with
    | literal node kind lexeme pos =>
      exact rebuilding_literal (he (⟨kind, lexeme⟩, node) List.mem_cons_self)
    | _ =>
      exact (rebuilding_interps fun hs e he => ih hs e he).expr hab (fun _ _ => trivial) he

theorem Machines.coherent {m n : Machine} (h : (rebuilding depth).Machines k m n) :
    m.Coherent ∧ n.Coherent := by
  obtain ⟨⟨hstore, hclosures⟩, -, -, hnodes, ⟨hm, hn⟩, -⟩ := h
  refine ⟨⟨hclosures, hm⟩, ?_⟩
  rw [hnodes] at hclosures hn
  rw [hstore] at hclosures
  exact ⟨hclosures, hn⟩

/-- Inspecting what is remembered does nothing to a run that remembers what is built. -/
theorem rebuilding_inspecting (engine : Engine) (alarm : Fault) :
    (rebuilding depth).Monitors (.plain engine) (.inspecting engine alarm) where
  around := fun h => h.guarded (fun _ _ hm => decide_eq_true hm.coherent.2) alarm
  opening := fun h =>
    rebuilding_nested _ (h.guarded (fun _ _ hm => decide_eq_true hm.coherent.2) alarm)

theorem rebuilding_interpInspected (engine : Engine) (alarm : Fault) (fuel : Nat) :
    (rebuilding depth).Interps 0 (fun _ => True) (fun _ => engine.interp fuel)
      (fun _ => engine.interpInspected alarm fuel) := by
  rw [← monitorPlain_interp engine fuel 0]
  exact (rebuilding_inspecting engine alarm).interpsUnder (.inl ⟨trivial, rfl⟩)

/-- Such runs end in the same way but for what they remember, which is right in both. -/
theorem EndAlike.forgetful_eq {α : Type} {o o' : Outcome α}
    (h : (rebuilding depth).EndAlike k L Same (fun _ => o) (fun _ => o')) :
    o.forgetful = o'.forgetful ∧ ∀ m ∈ o.machine?, m.Coherent ∧ L ≤ .listed m.nodes := by
  have hmachines {m n : Machine} (hm : (rebuilding depth).Machines k m n) :
      { m with literals := [] } = { n with literals := [] } := by
    obtain ⟨⟨hstore, -⟩, hout, hlog, hnodes, -, hdepth, -⟩ := hm
    rw [hstore, hout, hlog, hnodes, hdepth]
  have hends := h.ends
  cases o with
  | done a m =>
    obtain ⟨b, n, hsettle, hm, hlinks, rfl⟩ := hends
    obtain rfl := hsettle.eq_const
    refine ⟨congrArg (Outcome.done a) (hmachines hm), ?_⟩
    rintro _ ⟨rfl⟩
    exact ⟨hm.coherent.1, hlinks⟩
  | failed f m =>
    obtain hlost | ⟨n, hsettle, hm, hlinks⟩ := hends
    · exact hlost.elim
    · obtain rfl := hsettle.eq_const
      refine ⟨congrArg (Outcome.failed f) (hmachines hm), ?_⟩
      rintro _ ⟨rfl⟩
      exact ⟨hm.coherent.1, hlinks⟩
  | outOfFuel =>
    obtain hlost | ⟨-, hsettle⟩ := hends
    · exact hlost.elim
    · obtain rfl := hsettle.eq_const
      exact ⟨rfl, nofun⟩

end Simulation

section

open Simulation

variable (engine : Engine) (fuel scope : Nat) {m : Machine} (hm : m.Coherent) {e : Expr}
  (he : (Links.listed m.nodes).Knows e)
include hm

/-- A coherent machine beside itself. -/
theorem Machine.Coherent.machines : (rebuilding m.depth).Machines 0 m m :=
  ⟨⟨rfl, hm.closures⟩, rfl, rfl, rfl, ⟨hm.literals, hm.literals⟩, ⟨rfl, rfl⟩⟩

include he

/-- A visit of listed code comes to the same whether literals are remembered or not. -/
theorem Eval.visit_remembered :
    (visit engine fuel scope e m).forgetful = (visitAnew engine fuel scope e m).forgetful := by
  have hscope : (Links.listed m.nodes).frames scope scope := rfl
  have hvisit := Sim.same rebuilding_sameCells (rebuilding_visit engine fuel hscope e he) m m
    hm.machines le_rfl
  exact hvisit.forgetful_eq.1

/-- The condition too is tested in a coherent machine. -/
theorem Engine.coherent_of_condition :
    ∀ m' ∈ ((engine.interp fuel).condition scope e m).machine?,
      m'.Coherent ∧ Literal.Extends m.nodes m'.nodes := by
  have hscope : (Links.listed m.nodes).frames scope scope := rfl
  have hips : (rebuilding m.depth).Interps 0 (fun _ => True) (fun _ => engine.interp fuel)
      (fun _ => engine.interpAnew fuel) :=
    rebuilding_interps fun hs e he => rebuilding_visit engine fuel hs e he
  have hend := (hips.condition hscope ⟨trivial, he⟩ m m hm.machines le_rfl).forgetful_eq.2
  exact fun m' hm' => ⟨(hend m' hm').1, Links.listed_le_iff.mp (hend m' hm').2⟩

end

namespace Engine

open Simulation

/-- A text that is compiled becomes code of listed nodes, and nodes that are listed stay so. -/
theorem compile_listed {engine : Engine} {source : String} {m m' : Machine} {p : Program}
    (h : engine.compile source m = .done p m') (hm : m.Coherent) :
    m'.Coherent ∧ Literal.Extends m.nodes m'.nodes ∧
      ∀ root ∈ p.root, (Links.listed m'.nodes).Knows root := by
  cases hsource : Program.ofSource source with
  | error f =>
    rw [compile_of_error engine hsource] at h
    cases h
  | ok q =>
    rw [compile_of_ok engine hsource] at h
    cases h
    obtain ⟨hextends, hknown⟩ := q.numbered_extends m.nodes
    refine ⟨⟨fun f hf => ?_, hm.literals.extend hextends⟩, hextends, hknown⟩
    exact (hm.closures f hf).mono (Links.listed_le_iff.mpr hextends)

/-- A session of listed code in which literals are remembered has the same answers, the same output
    and the same store as one in which all literals are built anew at each visit. At every point of
    it, and at its end, what is remembered of a node is what is built for it; and what is compiled
    then is listed code as well. -/
theorem session_remembered (engine : Engine) (fuel : Nat) (jobs : List Job) (m : Machine)
    (hm : m.Coherent) (hjobs : ∀ job ∈ jobs, job.Known (.listed m.nodes)) :
    (Job.session (engine.interp fuel) jobs m).forgetful =
      (Job.session (engine.interpAnew fuel) jobs m).forgetful ∧
    (∀ m' ∈ (Job.session (engine.interp fuel) jobs m).machine?,
      m'.Coherent ∧ Literal.Extends m.nodes m'.nodes ∧
      ∀ source p m'', engine.compile source m' = .done p m'' →
        m''.Coherent ∧ Literal.Extends m'.nodes m''.nodes ∧
          ∀ scope, Job.Known (.listed m''.nodes) (.program scope p)) ∧
    ∀ alarm, (Job.session (engine.interpInspected alarm fuel) jobs m).forgetful =
      (Job.session (engine.interp fuel) jobs m).forgetful := by
  have hanew := (rebuilding_interps fun hs e he => rebuilding_visit engine fuel hs e he).session
    rebuilding_sameCells le_rfl hjobs m m hm.machines le_rfl
  obtain ⟨hsame, hend⟩ := hanew.forgetful_eq
  refine ⟨hsame, fun m' hm' => ?_, fun alarm => ?_⟩
  · obtain ⟨hcoherent, hle⟩ := hend m' hm'
    refine ⟨hcoherent, Links.listed_le_iff.mp hle, fun source p m'' hcompile => ?_⟩
    obtain ⟨hcoherent', hextends, hknown⟩ := compile_listed hcompile hcoherent
    exact ⟨hcoherent', hextends, fun _ => hknown⟩
  · have hinspected := (rebuilding_interpInspected engine alarm fuel).session
      rebuilding_sameCells le_rfl hjobs m m hm.machines le_rfl
    exact hinspected.forgetful_eq.1.symm

/-- The nodes of the room and of the jobs below. -/
def tallyNodes : Array Literal :=
  #[⟨.int, "1"⟩, ⟨.text, "\"[1, 1, 0x1]\""⟩, ⟨.int, "1"⟩, ⟨.int, "1"⟩, ⟨.text, "\"\\q\""⟩]

/-- A closure that runs a text, in which `1` is met, between two visits of a `1` of its own. -/
def tallyRoom : Store where
  frames := #[⟨none, 0, .ofList [("EVAL", .function 0), ("TALLY", .function 1)]⟩]
  functions := #[
    .primitive .eval,
    .closure (.exactly 0)
      (.list [.literal 0 .int "1" .start,
        .call (.name "EVAL" .start) [.literal 1 .text "\"[1, 1, 0x1]\"" .start] "EVAL(...)" .start,
        .literal 2 .int "1" .start] .start) 0]

/-- Three jobs of one evaluator: a call of the closure, a text that cannot be decoded and therefore
    fails every time, and the closure once more. -/
def tallyJobs : List Job :=
  [.visit 0 (.call (.name "TALLY" .start) [] "TALLY()" .start),
    .visit 0 (.list [.literal 3 .int "1" .start, .literal 4 .text "\"\\q\"" .start] .start),
    .program 0 ⟨some (.call (.name "TALLY" .start) [] "TALLY()" .start)⟩]

/-- The jobs of an evaluator that remembers the first `1` from the start. In the end it remembers
    the four nodes of its own that have a value, and it has listed those of the text, twice. -/
theorem session_remembered_tallyJobs :
    let m : Machine :=
      { store := tallyRoom, nodes := tallyNodes, literals := [(0, .int 1)] }
    let o := Job.session (Engine.interp {} 8) tallyJobs m
    ((o.machine?.map fun m' => (m'.literals.map Prod.fst, m'.nodes.size)) =
        some ([3, 2, 1, 0], 11) ∧
      m.Coherent ∧ ∀ job ∈ tallyJobs, job.Known (.listed m.nodes)) ∧
    o.forgetful = (Job.session (Engine.interpAnew {} 8) tallyJobs m).forgetful ∧
    (∀ m' ∈ o.machine?, m'.Coherent) ∧
    ∀ alarm, (Job.session (Engine.interpInspected {} alarm 8) tallyJobs m).forgetful =
      o.forgetful := by
  intro m o
  have hm : m.Coherent := by decide +kernel
  have hjobs : ∀ job ∈ tallyJobs, job.Known (.listed m.nodes) := by decide +kernel
  obtain ⟨hsame, hend, halarm⟩ := session_remembered {} 8 tallyJobs m hm hjobs
  exact ⟨⟨by decide +kernel, hm, hjobs⟩, hsame, fun m' hm' => (hend m' hm').1, halarm⟩

-- A stale entry, or one that belongs to another node of the same number, would be answered.
example :
    let m : Machine := { nodes := #[⟨.int, "1"⟩], literals := [(0, .int 2)] }
    ¬ m.Coherent ∧
      Eval.visit {} 1 0 (.literal 0 .int "1" .start) m = .done (.int 2) m ∧
      Eval.visitAnew {} 1 0 (.literal 0 .int "1" .start) m = .done (.int 1) m := by
  refine ⟨by decide, rfl, rfl⟩

end Engine

end ExprLang
