import ExprLang.Eval
import ExprLang.Proofs.Parts

/-!
# Where faults stand

A program that fails is told of in its own terms: the fault has the place of a node of the program,
and it is malformed or a matter of running it, whatever a function of the host, a text that was
compiled on the way or a closure of another program has to say. This is `Engine.evaluate_failed`.

The functions that are called need no assumption for it. A fault that comes out of a call takes on
the place of the call, so that only the steps outside of calls have to be looked at, and these raise
faults without a place, which get that of the nearest node around them.
-/

namespace ExprLang

namespace Expr

/-- The nodes right below a node. Other than among its parts, a target is a node of its own. -/
def children : Expr → List Expr
  | .stepBefore _ target _ | .stepAfter _ target _ => [.ref target]
  | .assign _ target value _ => [.ref target, value]
  | e => e.parts

/-- The nodes of a tree. -/
inductive Contains (root : Expr) : Expr → Prop
  | root : Contains root root
  | child {node e : Expr} (hnode : Contains root node) (he : e ∈ node.children) : Contains root e

theorem Contains.part {root e : Expr} {target : Target} (h : root.Contains (.ref target))
    (he : e ∈ target.parts) : root.Contains e :=
  .child h he

end Expr

/-! ## Faults of a program -/

namespace Fault

/-- A fault that can come out of a node of a tree: if it has a place, that is the place of a node,
    and if it has left calls, the outermost one is a node. -/
structure Within (root : Expr) (f : Fault) : Prop where
  reason : f.reason = .malformed ∨ f.reason = .runtime
  place : ∀ pos ∈ f.place, ∃ node, root.Contains node ∧ node.pos = pos
  call : ∀ site ∈ f.calls.head?, ∃ callee args,
    root.Contains (.call callee args site.text site.pos)

variable {root node : Expr} {cause : Cause}

theorem within_of (h : cause.reason = .malformed ∨ cause.reason = .runtime) :
    Within root (.of cause) where
  reason := h
  place pos hpos := by cases hpos
  call site hsite := by cases hsite

theorem within_atPos (h : cause.reason = .runtime) (hnode : root.Contains node) :
    Within root (.atPos cause node.pos) where
  reason := .inr h
  place pos hpos := by
    cases hpos
    exact ⟨node, hnode, rfl⟩
  call site hsite := by cases hsite

theorem calls_of_place {f : Fault} (h : f.place = none) : f.calls = [] := by
  unfold place at h
  split at h
  · assumption
  · cases h

/-- Whatever fault leaves a call, the call takes its place. -/
theorem within_leaving {callee : Target} {args : List Expr} {site : CallSite}
    (h : root.Contains (.call callee args site.text site.pos)) (f : Fault) :
    Within root (f.leaving site) where
  reason := by
    by_cases hcause : f.cause.reason = .malformed
    · exact .inl (by simp [reason, leaving, hcause])
    · exact .inr (by simp [reason, leaving, hcause])
  place pos hpos := by
    cases hpos
    exact ⟨_, h, rfl⟩
  call site' hsite := by
    cases hsite
    exact ⟨callee, args, h⟩

theorem place_located (f : Fault) (pos : Position) : (f.located pos).place ≠ none := by
  unfold located
  split
  · next hplace =>
    have hcalls := calls_of_place hplace
    simp [place, hcalls]
  · next hplace => simp [hplace]

theorem Within.located {f : Fault} (h : Within root f) (hnode : root.Contains node) :
    Within root (f.located node.pos) := by
  unfold Fault.located
  split
  · next hplace =>
    have hcalls := calls_of_place hplace
    have hreason := h.reason
    simp only [Fault.reason, hcalls] at hreason
    refine ⟨?_, ?_, ?_⟩
    · simpa only [Fault.reason, hcalls] using hreason
    · intro pos hpos
      simp only [Fault.place, hcalls] at hpos
      cases hpos
      exact ⟨node, hnode, rfl⟩
    · intro site hsite
      rw [hcalls] at hsite
      cases hsite
  · exact h

end Fault

/-! ## What checks complain about -/

/-- A check whose complaints are all matters of running a program. -/
def Complains {α : Type} (x : Except Cause α) : Prop :=
  ∀ cause, x = .error cause → cause.reason = .runtime

theorem complains_ok {α : Type} (a : α) : Complains (.ok a) := by
  intro cause h
  cases h

theorem complains_error {α : Type} {cause : Cause} (h : cause.reason = .runtime) :
    Complains (.error cause : Except Cause α) := by
  intro cause' h'
  cases h'
  exact h

namespace Slot

theorem complains_read (s : Store) (slot : Slot) : Complains (slot.read s) := by
  cases slot with
  | name scope key =>
    simp only [read]
    split
    · exact complains_ok _
    · exact complains_error rfl
  | element array index =>
    simp only [read]
    split
    · split
      · exact complains_ok _
      · exact complains_error rfl
    · exact complains_error rfl
  | member object key =>
    simp only [read]
    split
    · exact complains_ok _
    · exact complains_error rfl
  | immediate v => exact complains_ok v

theorem complains_write (s : Store) (v : Value) (slot : Slot) : Complains (slot.write s v) := by
  cases slot with
  | element array index =>
    simp only [write]
    split
    · exact complains_ok _
    · exact complains_error rfl
  | _ => exact complains_ok _

theorem complains_ofIndex (s : Store) (base key : Value) : Complains (ofIndex s base key) := by
  unfold ofIndex
  split
  · split
    · exact complains_ok _
    · exact complains_error rfl
  · exact complains_ok _
  · exact complains_ok _
  · exact complains_ok _

end Slot

namespace Eval

theorem complains_numeric (operator : String) (onInts : Int64 → Int64 → Int64)
    (onDoubles : Double → Double → Double) (l r : Value) :
    Complains (numeric operator onInts onDoubles l r) := by
  unfold numeric
  split
  · exact complains_ok _
  · split
    · exact complains_ok _
    · exact complains_error rfl

theorem complains_integral (operator : String) {f : Int64 → Int64 → Except Cause Int64}
    (hf : ∀ a b, Complains (f a b)) (l r : Value) : Complains (integral operator f l r) := by
  unfold integral
  split
  · next a b =>
    split
    · exact complains_ok _
    · next cause hcause => exact complains_error (hf a b cause hcause)
  · exact complains_error rfl

theorem complains_divide (l r : Value) : Complains (divide l r) := by
  unfold divide
  split
  · split
    · exact complains_error rfl
    · exact complains_ok _
  · split
    · exact complains_ok _
    · exact complains_error rfl

theorem complains_power (l r : Value) : Complains (power l r) := by
  unfold power
  split
  · split
    · exact complains_error rfl
    · split
      · split
        · exact complains_ok _
        · exact complains_ok _
      · exact complains_ok _
  · exact complains_error rfl

theorem complains_shift (op : ArithOp) (f : Int64 → Int64 → Int64) (l r : Value) :
    Complains (shift op f l r) := by
  apply complains_integral
  intro a b
  split
  · exact complains_error rfl
  · exact complains_ok _

theorem complains_arithmetic (op : ArithOp) (l r : Value) : Complains (arithmetic op l r) := by
  cases op with
  | add | sub | mul => exact complains_numeric _ _ _ l r
  | div => exact complains_divide l r
  | pow => exact complains_power l r
  | shiftLeft | shiftRight | shiftRightUnsigned => exact complains_shift _ _ l r
  | bitAnd | bitXor | bitOr => exact complains_integral _ (fun _ _ => complains_ok _) l r
  | mod =>
    apply complains_integral
    intro a b
    split
    · exact complains_error rfl
    · exact complains_ok _

theorem complains_applyOrder (op : OrderOp) (l r : Value) : Complains (applyOrder op l r) := by
  unfold applyOrder
  split
  · exact complains_ok _
  · exact complains_ok _
  · split
    · exact complains_ok _
    · exact complains_error rfl

theorem complains_applyStep (op : StepOp) (v : Value) : Complains (applyStep op v) := by
  unfold applyStep
  split
  · exact complains_ok _
  · exact complains_ok _
  · exact complains_error rfl

end Eval

theorem Literal.reason_of_wholeNumber {base : Nat} {digit? : Char → Option Nat}
    {digits : List Char} {cause : Cause} (h : wholeNumber base digit? digits = .error cause) :
    cause.reason = .malformed := by
  unfold wholeNumber at h
  split at h
  · cases h
  · cases h
    rfl

theorem Literal.reason_of_value {l : Literal} {cause : Cause} (h : l.value = .error cause) :
    cause.reason = .malformed := by
  unfold value at h
  split at h
  · exact reason_of_wholeNumber h
  · exact reason_of_wholeNumber h
  · split at h
    · cases h
    · cases h
      rfl
  · split at h
    · cases h
    · cases h
      rfl

/-! ## Steps outside of calls -/

/-- All faults of a computation can come out of a node of a tree. -/
def EvalM.FaultsWithin {α : Type} (root : Expr) (x : EvalM α) : Prop :=
  ∀ m f m', x m = .failed f m' → Fault.Within root f

theorem EvalM.exists_of_mapFault {α : Type} {change : Fault → Fault} {x : EvalM α} {m m' : Machine}
    {f : Fault} (h : mapFault change x m = .failed f m') :
    ∃ f', x m = .failed f' m' ∧ change f' = f := by
  unfold mapFault at h
  split at h
  · next f' m'' hx =>
    cases h
    exact ⟨f', hx, rfl⟩
  · next hne => exact absurd h (hne _ _)

namespace EvalM.FaultsWithin

variable {α β : Type} {root : Expr}

theorem pure (a : α) : FaultsWithin root (pure a) := by
  intro m f m' h
  cases h

theorem bind {x : EvalM α} {g : α → EvalM β} (hx : FaultsWithin root x)
    (hg : ∀ a, FaultsWithin root (g a)) : FaultsWithin root (x >>= g) := by
  intro m f m' h
  have h' : andThen x g m = .failed f m' := h
  unfold andThen at h'
  split at h'
  · exact hg _ _ _ _ h'
  · next hfailed =>
    cases h'
    exact hx _ _ _ hfailed
  · cases h'

theorem store : FaultsWithin root EvalM.store := by
  intro m f m' h
  cases h

theorem update (change : Store → α × Store) : FaultsWithin root (EvalM.update change) := by
  intro m f m' h
  cases h

theorem failWith {cause : Cause} (h : cause.reason = .runtime) :
    FaultsWithin root (EvalM.failWith cause : EvalM α) := by
  intro m f m' hfailed
  cases hfailed
  exact Fault.within_of (.inr h)

theorem check {x : Except Cause α} (h : Complains x) : FaultsWithin root (EvalM.check x) := by
  cases x with
  | ok a => exact pure a
  | error cause => exact failWith (h cause rfl)

theorem locating {node : Expr} {x : EvalM α} (hnode : root.Contains node)
    (hx : FaultsWithin root x) : FaultsWithin root (EvalM.locating node.pos x) := by
  intro m f m' h
  obtain ⟨f', h', rfl⟩ := exists_of_mapFault h
  exact (hx m f' m' h').located hnode

/-- Nothing is asked of what is called. -/
theorem inCall {callee : Target} {args : List Expr} {site : CallSite}
    (h : root.Contains (.call callee args site.text site.pos)) (x : EvalM α) :
    FaultsWithin root (EvalM.inCall site x) := by
  intro m f m' hfailed
  obtain ⟨f', -, rfl⟩ := exists_of_mapFault hfailed
  exact Fault.within_leaving h f'

theorem literal (node : Nat) (l : Literal) : FaultsWithin root (Eval.literal node l) := by
  intro m f m' h
  unfold Eval.literal at h
  split at h
  · cases h
  · split at h
    · cases h
    · next cause hvalue =>
      cases h
      exact Fault.within_of (.inl (Literal.reason_of_value hvalue))

theorem read (slot : Slot) : FaultsWithin root (Interp.read slot) :=
  bind store fun s => check (slot.complains_read s)

theorem write (slot : Slot) (v : Value) : FaultsWithin root (Interp.write slot v) := by
  intro m f m' h
  unfold Interp.write at h
  split at h
  · cases h
  · next cause hcause =>
    cases h
    exact Fault.within_of (.inr (slot.complains_write m.store v cause hcause))

theorem truthOf (operator : String) (v : Value) : FaultsWithin root (Eval.truthOf operator v) := by
  refine bind store fun s => ?_
  split
  · exact pure _
  · exact failWith rfl

theorem applyUnary (op : UnaryOp) (v : Value) : FaultsWithin root (Eval.applyUnary op v) := by
  unfold Eval.applyUnary
  split
  · exact bind (truthOf _ v) fun b => pure _
  · exact pure _
  · exact pure _
  · exact pure _
  · exact pure _
  · exact pure _
  · exact failWith rfl

theorem applyArith (op : ArithOp) (l r : Value) : FaultsWithin root (Eval.applyArith op l r) := by
  refine bind store fun s => ?_
  split
  · exact pure _
  · split
    · exact update _
    · exact check (Eval.complains_arithmetic op l r)

theorem applyEquality (op : EqualityOp) (l r : Value) :
    FaultsWithin root (Eval.applyEquality op l r) := by
  refine bind store fun s => ?_
  split
  · exact failWith rfl
  · exact pure _

/-! Steps over an `Interp` that visits the nodes of the tree. What it does on opening a call is left
open. -/

section Interp

variable {ip : Interp} {scope : Nat}
  (ih : ∀ e, root.Contains e → FaultsWithin root (ip.visit scope e))
include ih

theorem visitAll {es : List Expr} (hes : ∀ e ∈ es, root.Contains e) :
    FaultsWithin root (ip.visitAll scope es) := by
  induction es with
  | nil => exact pure _
  | cons e es ihes =>
    have hrest := ihes fun e' he' => hes e' (List.mem_cons_of_mem _ he')
    exact bind (ih e (hes e List.mem_cons_self)) fun v => bind hrest fun vs => pure _

theorem visitEntries {entries : List Entry}
    (hentries : ∀ e ∈ entries.map Entry.value, root.Contains e) :
    FaultsWithin root (ip.visitEntries scope entries) := by
  induction entries with
  | nil => exact pure _
  | cons entry entries ihentries =>
    obtain ⟨key, pos, value⟩ := entry
    have hvalue : root.Contains value := hentries value List.mem_cons_self
    have hrest := ihentries fun e he => hentries e (List.mem_cons_of_mem _ he)
    exact bind (ih value hvalue) fun v => bind hrest fun vs => pure _

theorem resolve {target : Target} (htarget : root.Contains (.ref target)) :
    FaultsWithin root (ip.resolve scope target) := by
  apply locating htarget
  cases target with
  | name name pos => exact pure _
  | index base index pos =>
    have hbase : root.Contains base := htarget.part List.mem_cons_self
    have hindex : root.Contains index :=
      htarget.part (List.mem_cons_of_mem _ List.mem_cons_self)
    refine bind (ih base hbase) fun b => bind (ih index hindex) fun k => bind store fun s => ?_
    exact check (Slot.complains_ofIndex s b k)
  | member base name pos =>
    have hbase : root.Contains base := htarget.part List.mem_cons_self
    exact bind (ih base hbase) fun b => pure _

theorem condition {e : Expr} (he : root.Contains e) :
    FaultsWithin root (ip.condition scope e) := by
  refine bind (ih e he) fun v => bind store fun s => ?_
  split
  · exact pure _
  · intro m f m' h
    cases h
    exact Fault.within_atPos rfl he

theorem shortCircuit (op : LogicOp) (left : Value) {right : Expr} (hright : root.Contains right) :
    FaultsWithin root (ip.shortCircuit scope op left right) := by
  refine bind (truthOf _ left) fun l => ?_
  split
  · exact pure _
  · exact pure _
  · exact bind (ih right hright) fun v => bind (truthOf _ v) fun r => pure _

theorem binary (op : BinaryOp) {left right : Expr} (hleft : root.Contains left)
    (hright : root.Contains right) : FaultsWithin root (ip.binary scope op left right) := by
  refine bind (ih left hleft) fun l => ?_
  cases op with
  | sequence => exact ih right hright
  | logic op => exact shortCircuit ih op l hright
  | arith op => exact bind (ih right hright) fun r => applyArith op l r
  | order op => exact bind (ih right hright) fun r => check (Eval.complains_applyOrder op l r)
  | equality op => exact bind (ih right hright) fun r => applyEquality op l r

theorem stepTarget (op : StepOp) {target : Target} (htarget : root.Contains (.ref target)) :
    FaultsWithin root (ip.stepTarget scope op target) := by
  refine bind (resolve ih htarget) fun slot => bind (read slot) fun before => ?_
  refine bind (check (Eval.complains_applyStep op before)) fun after => ?_
  exact bind (write slot after) fun _ => pure _

theorem assign (op : AssignOp) {target : Target} {value : Expr}
    (htarget : root.Contains (.ref target)) (hvalue : root.Contains value) :
    FaultsWithin root (ip.assign scope op target value) := by
  refine bind (resolve ih htarget) fun slot => ?_
  have hwrite (result : Value) : FaultsWithin root
      (do let _ ← Interp.write slot result; return result) :=
    bind (write slot result) fun _ => pure _
  cases op with
  | plain => exact bind (ih value hvalue) hwrite
  | logic op =>
    exact bind (read slot) fun current => bind (shortCircuit ih op current hvalue) hwrite
  | arith op =>
    refine bind (read slot) fun current => bind (ih value hvalue) fun r => ?_
    exact bind (applyArith op current r) hwrite

theorem call {callee : Target} {args : List Expr} {site : CallSite}
    (h : root.Contains (.call callee args site.text site.pos)) :
    FaultsWithin root (ip.call scope callee args site) := by
  have hcallee : root.Contains (.ref callee) := .child h List.mem_cons_self
  have hargs : ∀ e ∈ args, root.Contains e := fun e he => .child h (List.mem_cons_of_mem _ he)
  refine bind (ih _ hcallee) fun v => bind store fun s => ?_
  split
  · split
    · exact inCall h _
    · exact bind (visitAll ih hargs) fun vs => inCall h _
    · exact failWith rfl
  · exact failWith rfl

/-- One step of evaluation at a node. -/
theorem expr {e : Expr} (he : root.Contains e) : FaultsWithin root (ip.expr scope e) := by
  have hchild {e' : Expr} (h : e' ∈ e.children) : root.Contains e' := .child he h
  cases e with
  | literal node kind lexeme pos => exact literal _ _
  | ref target => exact bind (resolve ih he) fun slot => read slot
  | call callee args text pos => exact call ih he
  | list elems pos => exact bind (visitAll ih fun e' => hchild) fun vs => update _
  | object entries pos => exact bind (visitEntries ih fun e' => hchild) fun vs => update _
  | group inner pos => exact ih inner (hchild List.mem_cons_self)
  | unary op operand pos =>
    exact bind (ih operand (hchild List.mem_cons_self)) fun v => applyUnary op v
  | stepBefore op target pos =>
    exact bind (stepTarget ih op (hchild List.mem_cons_self)) fun p => pure _
  | stepAfter op target pos =>
    exact bind (stepTarget ih op (hchild List.mem_cons_self)) fun p => pure _
  | binary op left right pos =>
    exact binary ih op (hchild List.mem_cons_self)
      (hchild (List.mem_cons_of_mem _ List.mem_cons_self))
  | conditional test ifTrue ifFalse pos =>
    have htrue : root.Contains ifTrue := hchild (List.mem_cons_of_mem _ List.mem_cons_self)
    have hfalse : root.Contains ifFalse :=
      hchild (List.mem_cons_of_mem _ (List.mem_cons_of_mem _ List.mem_cons_self))
    refine bind (condition ih (hchild List.mem_cons_self)) fun holds => ?_
    split
    · exact ih ifTrue htrue
    · exact ih ifFalse hfalse
  | assign op target value pos =>
    exact assign ih op (hchild List.mem_cons_self)
      (hchild (List.mem_cons_of_mem _ List.mem_cons_self))

end Interp

/-- Evaluation at a node, by induction on the fuel. -/
theorem visit (engine : Engine) (fuel scope : Nat) {e : Expr} (he : root.Contains e) :
    FaultsWithin root (Eval.visit engine fuel scope e) := by
  induction fuel generalizing scope e with
  | zero =>
    intro m f m' h
    cases h
  | succ fuel ih => exact locating he (expr (fun e' he' => ih scope he') he)

end EvalM.FaultsWithin

theorem Eval.place_of_visit {engine : Engine} {fuel scope : Nat} {e : Expr} {m m' : Machine}
    {f : Fault} (h : Eval.visit engine fuel scope e m = .failed f m') : f.place ≠ none := by
  cases fuel with
  | zero => cases h
  | succ fuel =>
    obtain ⟨f', -, rfl⟩ := EvalM.exists_of_mapFault h
    exact f'.place_located e.pos

/-- The fault of a computation that has failed. -/
def Outcome.fault? {α : Type} : Outcome α → Option Fault
  | .failed f _ => some f
  | _ => none

theorem Outcome.exists_of_fault? {α : Type} {o : Outcome α} {f : Fault} (h : o.fault? = some f) :
    ∃ m, o = .failed f m := by
  cases o with
  | failed f' m =>
    cases h
    exact ⟨m, rfl⟩
  | _ => cases h

namespace Engine

/-- A program that fails has a fault that is malformed or a matter of running it, and that has the
    place of a node of the program. If the fault has left calls, the outermost of them is a node,
    too. Nothing is asked of the functions that the scope holds. -/
theorem evaluate_failed {engine : Engine} {fuel scope : Nat} {program : Program} {m m' : Machine}
    {f : Fault} (h : engine.evaluate fuel program scope m = .failed f m') :
    ∃ root, program.root = some root ∧ (f.reason = .malformed ∨ f.reason = .runtime) ∧
      (∃ node, root.Contains node ∧ f.place = some node.pos) ∧
      ∀ site ∈ f.calls.head?, ∃ callee args,
        root.Contains (.call callee args site.text site.pos) := by
  obtain ⟨_ | root⟩ := program
  · cases h
  · refine ⟨root, rfl, ?_⟩
    simp only [evaluate] at h
    split at h
    · cases h
    · next f' m'' hvisit =>
      cases h
      have hwithin := EvalM.FaultsWithin.visit engine fuel scope .root m f m'' hvisit
      obtain ⟨pos, hpos⟩ := Option.ne_none_iff_exists'.mp (Eval.place_of_visit hvisit)
      obtain ⟨node, hnode, rfl⟩ := hwithin.place pos hpos
      exact ⟨hwithin.reason, ⟨node, hnode, hpos⟩, hwithin.call⟩
    · cases h

/-- A function of the host that reports a failure of the surroundings, and a closure of another
    program that calls it. -/
def remoteFailure : Store where
  frames := #[⟨none, 0, .ofList [("BROKEN", .function 0), ("REMOTE", .function 1)]⟩]
  functions := #[
    .primitive (.native
      ⟨"BROKEN", .exactly 0, fun _ => .error (.atPos (.printFailed "full") ⟨7, 7⟩)⟩),
    .closure (.exactly 0) (.call (.name "BROKEN" ⟨90, 3⟩) [] "BROKEN()" ⟨90, 3⟩) 0]

/-- The tree of `1 + REMOTE()`. -/
def remoteSum : Expr :=
  .binary (.arith .add) (.literal 0 .int "1" ⟨1, 1⟩)
    (.call (.name "REMOTE" ⟨1, 5⟩) [] "REMOTE()" ⟨1, 5⟩) ⟨1, 3⟩

/-- The failure is told of as one of running the program, at the call that stands in it. -/
theorem evaluate_failed_remoteSum :
    ∃ f m', Engine.evaluate {} 6 ⟨some remoteSum⟩ 0 { store := remoteFailure } = .failed f m' ∧
      f.cause.reason = .system ∧ f.calls = [⟨"REMOTE()", ⟨1, 5⟩⟩, ⟨"BROKEN()", ⟨90, 3⟩⟩] ∧
      (f.reason = .malformed ∨ f.reason = .runtime) ∧
      ∃ node, remoteSum.Contains node ∧ f.place = some node.pos := by
  have hfault : (Engine.evaluate {} 6 ⟨some remoteSum⟩ 0 { store := remoteFailure }).fault? =
      some ⟨.printFailed "full", some ⟨7, 7⟩,
        [⟨"REMOTE()", ⟨1, 5⟩⟩, ⟨"BROKEN()", ⟨90, 3⟩⟩]⟩ := by decide +kernel
  obtain ⟨m', hfailed⟩ := Outcome.exists_of_fault? hfault
  obtain ⟨root, hroot, hreason, hplace, -⟩ := evaluate_failed hfailed
  cases hroot
  exact ⟨_, m', hfailed, rfl, rfl, hreason, hplace⟩

end Engine

end ExprLang
