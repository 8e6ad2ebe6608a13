import ExprLang.Proofs.LiteralCache

/-!
# Compound assignment

A compound assignment `t op= e` finds the slot of its target once, while `t = t op e` finds it a
second time before `e` is evaluated. If finding it only reads, the second time it is the same slot
and nothing has changed, so both assignments do the same (`Eval.visit_compound`), whatever `e` does
to the target. Where they fail, the places of their faults may differ.

Finding a slot may remember literals, and the two targets are different nodes. The argument is
therefore made for evaluation that remembers none (`Eval.visitAnew`), which comes to the same.
-/

namespace ExprLang

/-! ## Outcomes but for places -/

namespace Fault

/-- The text of a fault without its place. -/
def message (f : Fault) : String :=
  match f.calls with
  | [] => f.cause.message
  | site :: calls =>
    f.label ++ " error while executing `" ++ site.text ++ "`:\n\t" ++
      Fault.toText { f with calls := calls }

/-- Faults that differ in their places only. -/
structure SaysSame (f g : Fault) : Prop where
  reason : f.reason = g.reason
  message : f.message = g.message

theorem saysSame_located (f : Fault) (pos : Position) : (f.located pos).SaysSame f := by
  obtain ⟨cause, place, calls⟩ := f
  cases calls with
  | nil =>
    cases place with
    | none => exact ⟨rfl, rfl⟩
    | some p => exact ⟨rfl, rfl⟩
  | cons site calls => exact ⟨rfl, rfl⟩

end Fault

/-- Outcomes with the same value and machine, or with faults that differ in their places only. -/
inductive Outcome.SameButPlace {α : Type} : Outcome α → Outcome α → Prop
  | done (a : α) (m : Machine) : SameButPlace (.done a m) (.done a m)
  | failed {f g : Fault} (h : f.SaysSame g) (m : Machine) : SameButPlace (.failed f m) (.failed g m)
  | outOfFuel : SameButPlace .outOfFuel .outOfFuel

namespace Outcome.SameButPlace

variable {α : Type} {o o' o'' : Outcome α}

theorem refl (o : Outcome α) : o.SameButPlace o := by
  cases o with
  | done a m => exact .done a m
  | failed f m => exact .failed ⟨rfl, rfl⟩ m
  | outOfFuel => exact .outOfFuel

theorem symm (h : o.SameButPlace o') : o'.SameButPlace o := by
  cases h with
  | done a m => exact .done a m
  | failed h m => exact .failed ⟨h.reason.symm, h.message.symm⟩ m
  | outOfFuel => exact .outOfFuel

theorem trans (h : o.SameButPlace o') (h' : o'.SameButPlace o'') : o.SameButPlace o'' := by
  cases h with
  | done a m => exact h'
  | failed h m =>
    cases h' with
    | failed h' m => exact .failed ⟨h.reason.trans h'.reason, h.message.trans h'.message⟩ m
  | outOfFuel => exact h'

theorem eq_done {a : α} {m : Machine} (h : o.SameButPlace (.done a m)) : o = .done a m := by
  cases h
  rfl

theorem forgetful (h : o.SameButPlace o') : o.forgetful.SameButPlace o'.forgetful := by
  cases h with
  | done a m => exact .done a _
  | failed h m => exact .failed h _
  | outOfFuel => exact .outOfFuel

end Outcome.SameButPlace

namespace EvalM

variable {α β : Type} {x y z : EvalM α}

/-- Computations that always end in the same way but for the places of faults. -/
def Like (x y : EvalM α) : Prop := ∀ m, (x m).SameButPlace (y m)

namespace Like

theorem refl (x : EvalM α) : x.Like x := fun m => .refl (x m)

theorem symm (h : x.Like y) : y.Like x := fun m => (h m).symm

theorem trans (h : x.Like y) (h' : y.Like z) : x.Like z := fun m => (h m).trans (h' m)

theorem bind (h : x.Like y) {f g : α → EvalM β} (hfg : ∀ a, (f a).Like (g a)) :
    (x >>= f).Like (y >>= g) := by
  intro m
  show (andThen x f m).SameButPlace (andThen y g m)
  simp only [andThen]
  generalize hx : x m = o, hy : y m = o'
  have hm := h m
  rw [hx, hy] at hm
  cases hm with
  | done a m' => exact hfg a m'
  | failed hf m' => exact .failed hf m'
  | outOfFuel => exact .outOfFuel

/-- Where a fault is located makes no difference. -/
theorem locating (pos : Position) (x : EvalM α) : (EvalM.locating pos x).Like x := by
  intro m
  simp only [EvalM.locating, mapFault]
  cases x m with
  | done a m' => exact .refl _
  | failed f m' => exact .failed (f.saysSame_located pos) m'
  | outOfFuel => exact .refl _

theorem located (h : x.Like y) (pos pos' : Position) :
    (EvalM.locating pos x).Like (EvalM.locating pos' y) :=
  (locating pos x).trans (h.trans (locating pos' y).symm)

end Like

theorem bind_assoc {γ : Type} (x : EvalM α) (f : α → EvalM β) (g : β → EvalM γ) :
    (x >>= f) >>= g = x >>= fun a => f a >>= g := by
  funext m
  show andThen (andThen x f) g m = andThen x (fun a => andThen (f a) g) m
  simp only [andThen]
  cases x m with
  | done a m' => rfl
  | failed f m' => rfl
  | outOfFuel => rfl

end EvalM

/-! ## Computations that only read -/

namespace EvalM

variable {α β : Type}

/-- If the computation ends with a value, the machine is as before. -/
def OnlyReads (x : EvalM α) : Prop := ∀ ⦃m a m'⦄, x m = .done a m' → m' = m

namespace OnlyReads

variable {x y : EvalM α}

theorem pure (a : α) : OnlyReads (Pure.pure a : EvalM α) := by
  intro m b m' h
  cases h
  rfl

theorem check (r : Except Cause α) : OnlyReads (EvalM.check r) := by
  intro m b m' h
  cases r with
  | error cause => cases h
  | ok a =>
    cases h
    rfl

theorem store : OnlyReads EvalM.store := by
  intro m s m' h
  cases h
  rfl

theorem bind (hx : x.OnlyReads) {f : α → EvalM β} (hf : ∀ a, (f a).OnlyReads) :
    (x >>= f).OnlyReads := by
  intro m b m' h
  change andThen x f m = _ at h
  simp only [andThen] at h
  cases hxm : x m with
  | done a m₁ =>
    rw [hxm] at h
    rw [← hx hxm]
    exact hf a h
  | failed f m₁ =>
    rw [hxm] at h
    cases h
  | outOfFuel =>
    rw [hxm] at h
    cases h

theorem locating (pos : Position) (hx : x.OnlyReads) : (EvalM.locating pos x).OnlyReads := by
  intro m a m' h
  simp only [EvalM.locating, mapFault] at h
  cases hxm : x m with
  | done b m₁ =>
    rw [hxm] at h
    cases h
    exact hx hxm
  | failed f m₁ =>
    rw [hxm] at h
    cases h
  | outOfFuel =>
    rw [hxm] at h
    cases h

/-- A computation that only reads may be repeated, places of faults aside. -/
theorem bind_again (hx : x.OnlyReads) (hy : y.Like x) (f : α → α → EvalM β) :
    (x >>= fun a => y >>= f a).Like (x >>= fun a => f a a) := by
  intro m
  show (andThen x (fun a => andThen y (f a)) m).SameButPlace (andThen x (fun a => f a a) m)
  simp only [andThen]
  cases hxm : x m with
  | done a m₁ =>
    obtain rfl := hx hxm
    have hym := hy m₁
    rw [hxm] at hym
    simp only [hym.eq_done]
    exact .refl _
  | failed fault m₁ => exact .refl _
  | outOfFuel => exact .refl _

end OnlyReads

end EvalM

/-! ## Targets that only read -/

mutual

/-- Finding the slot only reads: the target is made of names, literals, groups, elements and
    members. -/
def Target.onlyReads : Target → Bool
  | .name _ _ => true
  | .index base index _ => base.onlyReads && index.onlyReads
  | .member base _ _ => base.onlyReads

@[inherit_doc Target.onlyReads]
def Expr.onlyReads : Expr → Bool
  | .literal _ _ _ _ => true
  | .ref target => target.onlyReads
  | .group inner _ => inner.onlyReads
  | _ => false

end

mutual

theorem Target.onlyReads_unplaced : (target : Target) →
    target.unplaced.onlyReads = target.onlyReads
  | .name _ _ => rfl
  | .index base index _ => by
    simp only [Target.unplaced, Target.onlyReads, base.onlyReads_unplaced, index.onlyReads_unplaced]
  | .member base _ _ => by simp only [Target.unplaced, Target.onlyReads, base.onlyReads_unplaced]

theorem Expr.onlyReads_unplaced : (e : Expr) → e.unplaced.onlyReads = e.onlyReads
  | .ref target => by simp only [Expr.unplaced, Expr.onlyReads, target.onlyReads_unplaced]
  | .group inner _ => by simp only [Expr.unplaced, Expr.onlyReads, inner.onlyReads_unplaced]
  | .literal _ _ _ _ | .call _ _ _ _ | .list _ _ | .object _ _ | .unary _ _ _ | .stepBefore _ _ _
  | .stepAfter _ _ _ | .binary _ _ _ _ | .conditional _ _ _ _ | .assign _ _ _ _ => by
    simp only [Expr.unplaced, Expr.onlyReads]

end

theorem Target.onlyReads_part {target : Target} (h : target.onlyReads = true) {part : Expr}
    (hpart : part ∈ target.parts) : part.onlyReads = true := by
  cases target with
  | name name pos => cases hpart
  | index base index pos =>
    rw [onlyReads, Bool.and_eq_true] at h
    rw [parts, List.mem_pair] at hpart
    rcases hpart with rfl | rfl
    · exact h.1
    · exact h.2
  | member base name pos =>
    rw [parts, List.mem_singleton] at hpart
    rw [hpart]
    exact h

namespace Interp

variable {ip ip' : Interp} {scope : Nat} {target : Target}

theorem onlyReads_resolve (h : ∀ part ∈ target.parts, (ip.visit scope part).OnlyReads) :
    (ip.resolve scope target).OnlyReads := by
  refine .locating target.pos ?_
  cases target with
  | name name pos => exact .pure _
  | index base index pos =>
    have hbase := h base List.mem_cons_self
    have hindex := h index (List.mem_cons_of_mem _ List.mem_cons_self)
    exact hbase.bind fun b => hindex.bind fun k => .bind .store fun s => .check _
  | member base name pos => exact (h base List.mem_cons_self).bind fun b => .pure _

theorem like_resolve
    (h : ∀ part ∈ target.parts, (ip.visit scope part).Like (ip'.visit scope part.unplaced)) :
    (ip.resolve scope target).Like (ip'.resolve scope target.unplaced) := by
  refine EvalM.Like.located ?_ target.pos target.unplaced.pos
  cases target with
  | name name pos => exact .refl _
  | index base index pos =>
    have hbase := h base List.mem_cons_self
    have hindex := h index (List.mem_cons_of_mem _ List.mem_cons_self)
    exact hbase.bind fun b => hindex.bind fun k => .refl _
  | member base name pos => exact (h base List.mem_cons_self).bind fun b => .refl _

end Interp

namespace Eval

variable {engine : Engine} {scope : Nat}

theorem onlyReads_visitAnew (fuel : Nat) {e : Expr} (h : e.onlyReads = true) :
    (visitAnew engine fuel scope e).OnlyReads := by
  induction fuel generalizing e with
  | zero => exact fun _ _ _ hdone => nomatch hdone
  | succ fuel ih =>
    refine .locating e.pos ?_
    cases e with
    | literal node kind lexeme pos => exact .check _
    | ref target =>
      have hparts (part : Expr) (hpart : part ∈ target.parts) := ih (Target.onlyReads_part h hpart)
      exact (Interp.onlyReads_resolve hparts).bind fun slot => .bind .store fun s => .check _
    | group inner pos => exact ih h
    | _ => cases h

/-- Neither places nor fuel, if there is enough of it, matter to what only reads. -/
theorem like_visitAnew {fuel fuel' : Nat} {e : Expr} (h : e.onlyReads = true)
    (hfuel : sizeOf e ≤ fuel) (hfuel' : sizeOf e ≤ fuel') :
    (visitAnew engine fuel scope e).Like (visitAnew engine fuel' scope e.unplaced) := by
  have hpos := e.sizeOf_pos
  induction fuel generalizing fuel' e with
  | zero => omega
  | succ fuel ih =>
    obtain ⟨fuel', rfl⟩ : ∃ rest, fuel' = rest + 1 := ⟨fuel' - 1, by omega⟩
    refine EvalM.Like.located ?_ e.pos e.unplaced.pos
    -- one step down, parts are smaller and so is the fuel
    have hpart {part : Expr} (hmem : part ∈ e.parts) (hreads : part.onlyReads = true) :
        (visitAnew engine fuel scope part).Like (visitAnew engine fuel' scope part.unplaced) := by
      have hlt := Expr.sizeOf_lt_of_mem_parts hmem
      exact ih hreads (by omega) (by omega) part.sizeOf_pos
    cases e with
    | literal node kind lexeme pos => exact .refl _
    | ref target =>
      refine .bind (Interp.like_resolve fun part hmem => ?_) fun slot => .refl _
      exact hpart hmem (Target.onlyReads_part h hmem)
    | group inner pos => exact hpart List.mem_cons_self h
    | _ => cases h

theorem like_resolve (engine : Engine) (scope : Nat) {fuel fuel' : Nat} {target : Target}
    (h : target.onlyReads = true) (hfuel : sizeOf target ≤ fuel) (hfuel' : sizeOf target ≤ fuel') :
    ((engine.interpAnew fuel).resolve scope target).Like
      ((engine.interpAnew fuel').resolve scope target.unplaced) := by
  refine Interp.like_resolve fun part hpart => ?_
  have hlt := Target.sizeOf_lt_of_mem_parts hpart
  exact like_visitAnew (Target.onlyReads_part h hpart) (by omega) (by omega)

/-- The same target elsewhere in a text. -/
theorem like_resolve_elsewhere {fuel fuel' : Nat} {target target' : Target}
    (h : target.onlyReads = true) (heq : target'.unplaced = target.unplaced)
    (hfuel : sizeOf target ≤ fuel) (hfuel' : sizeOf target' ≤ fuel') :
    ((engine.interpAnew fuel').resolve scope target').Like
      ((engine.interpAnew fuel).resolve scope target) := by
  have h' : target'.onlyReads = true := by
    rw [← target'.onlyReads_unplaced, heq, target.onlyReads_unplaced, h]
  have hthere := like_resolve engine scope h' hfuel'
    (Nat.le_max_left (sizeOf target') (sizeOf target))
  have hhere := like_resolve engine scope h hfuel
    (Nat.le_max_right (sizeOf target') (sizeOf target))
  rw [heq] at hthere
  exact hthere.trans hhere.symm

end Eval

/-! ## Assignments -/

/-- The operator that a compound assignment combines its target and its value by. -/
def AssignOp.combines : AssignOp → Option BinaryOp
  | .plain => none
  | .arith op => some (.arith op)
  | .logic op => some (.logic op)

theorem AssignOp.spelling_of_combines {op : AssignOp} {op' : BinaryOp}
    (h : op.combines = some op') : op.spelling = op'.spelling ++ "=" := by
  cases op with
  | plain => cases h
  | arith op =>
    cases h
    rfl
  | logic op =>
    cases h
    rfl

namespace Interp

variable {ip ip' : Interp} {scope : Nat}

/-- Finishes a binary expression after the left operand. -/
def combine (ip : Interp) (scope : Nat) (op : BinaryOp) (left : Value) (right : Expr) :
    EvalM Value :=
  match op with
  | .sequence => ip.visit scope right
  | .logic op => ip.shortCircuit scope op left right
  | .arith op => do
    let r ← ip.visit scope right
    Eval.applyArith op left r
  | .order op => do
    let r ← ip.visit scope right
    EvalM.check (Eval.applyOrder op left r)
  | .equality op => do
    let r ← ip.visit scope right
    Eval.applyEquality op left r

theorem binary_eq_combine (ip : Interp) (scope : Nat) (op : BinaryOp) (left right : Expr) :
    ip.binary scope op left right =
      ip.visit scope left >>= fun l => ip.combine scope op l right :=
  rfl

/-- Combines what is in one slot with the value of an expression and writes it to another slot. -/
def combineInto (ip : Interp) (scope : Nat) (op : BinaryOp) (value : Expr) (slot slot' : Slot) :
    EvalM Value := do
  let current ← read slot'
  let result ← ip.combine scope op current value
  let _ ← write slot result
  return result

/-- A compound assignment finds its slot once, and reads and writes it. -/
theorem assign_eq_combineInto {op : AssignOp} {op' : BinaryOp} (h : op.combines = some op')
    (ip : Interp) (scope : Nat) (target : Target) (value : Expr) :
    ip.assign scope op target value =
      ip.resolve scope target >>= fun slot => ip.combineInto scope op' value slot slot := by
  cases op with
  | plain => cases h
  | arith op =>
    cases h
    simp only [assign, combineInto, combine, EvalM.bind_assoc]
  | logic op =>
    cases h
    rfl

theorem like_combine (op : BinaryOp) (left : Value) {right right' : Expr}
    (h : (ip.visit scope right).Like (ip'.visit scope right')) :
    (ip.combine scope op left right).Like (ip'.combine scope op left right') := by
  cases op with
  | sequence => exact h
  | logic op =>
    refine .bind (.refl _) fun l => ?_
    cases op <;> cases l
    · exact .refl _
    · exact h.bind fun v => .refl _
    · exact h.bind fun v => .refl _
    · exact .refl _
  | arith op => exact h.bind fun r => .refl _
  | order op => exact h.bind fun r => .refl _
  | equality op => exact h.bind fun r => .refl _

end Interp

namespace Eval

variable {engine : Engine} {scope : Nat} {op : AssignOp} {op' : BinaryOp} {target target' : Target}
  {value right : Expr} {fuel fuel' : Nat}

/-- `t op e` finds the slot of its left operand, reads it and goes on with `e`. -/
theorem like_visitAnew_binary (pos : Position)
    (hright : (visitAnew engine (fuel' + 1) scope right).Like (visitAnew engine fuel scope value)) :
    (visitAnew engine (fuel' + 2) scope (.binary op' (.ref target') right pos)).Like
      ((engine.interpAnew fuel').resolve scope target' >>= fun slot => Interp.read slot >>=
        fun current => (engine.interpAnew fuel).combine scope op' current value) := by
  refine (EvalM.Like.locating pos _).trans ?_
  show ((engine.interpAnew (fuel' + 1)).binary scope op' (.ref target') right).Like _
  rw [Interp.binary_eq_combine, ← EvalM.bind_assoc]
  exact .bind (EvalM.Like.locating target'.pos _) fun l => Interp.like_combine op' l hright

/-- `t = t op e` finds two slots, and writes the first one after it has read the second. -/
theorem like_visitAnew_plain (pos pos' : Position)
    (hright : (visitAnew engine (fuel' + 1) scope right).Like (visitAnew engine fuel scope value)) :
    (visitAnew engine (fuel' + 3) scope
        (.assign .plain target (.binary op' (.ref target') right pos) pos')).Like
      ((engine.interpAnew (fuel' + 2)).resolve scope target >>= fun slot =>
        (engine.interpAnew fuel').resolve scope target' >>=
          (engine.interpAnew fuel).combineInto scope op' value slot) := by
  refine (EvalM.Like.locating pos' _).trans ?_
  refine EvalM.Like.bind (.refl _) fun slot => ?_
  refine ((like_visitAnew_binary pos hright).bind fun result => .refl _).trans ?_
  simp only [EvalM.bind_assoc]
  exact .refl _

/-- The two assignments, with fuel that is enough to find the slots and as much for the value in
    both. -/
theorem like_visitAnew_compound (hop : op.combines = some op') (htarget : target.onlyReads = true)
    (htarget' : target'.unplaced = target.unplaced) (hfuel : sizeOf target ≤ fuel)
    (hfuel₁ : sizeOf target ≤ fuel') (hfuel₂ : sizeOf target' ≤ fuel')
    (hright : (visitAnew engine (fuel' + 1) scope right).Like (visitAnew engine fuel scope value))
    (pos pos' pos'' : Position) :
    (visitAnew engine (fuel + 1) scope (.assign op target value pos)).Like
      (visitAnew engine (fuel' + 3) scope
        (.assign .plain target (.binary op' (.ref target') right pos') pos'')) := by
  have hcompound : (visitAnew engine (fuel + 1) scope (.assign op target value pos)).Like
      ((engine.interpAnew fuel).resolve scope target >>= fun slot =>
        (engine.interpAnew fuel).combineInto scope op' value slot slot) := by
    rw [← Interp.assign_eq_combineInto hop]
    exact EvalM.Like.locating pos _
  have hreads : ((engine.interpAnew fuel).resolve scope target).OnlyReads :=
    Interp.onlyReads_resolve fun _ hpart =>
      onlyReads_visitAnew fuel (Target.onlyReads_part htarget hpart)
  have hfind : ((engine.interpAnew (fuel' + 2)).resolve scope target).Like
      ((engine.interpAnew fuel).resolve scope target) :=
    like_resolve_elsewhere htarget rfl hfuel (by omega)
  have hagain : ((engine.interpAnew fuel').resolve scope target').Like
      ((engine.interpAnew fuel).resolve scope target) :=
    like_resolve_elsewhere htarget htarget' hfuel hfuel₂
  refine hcompound.trans (EvalM.Like.symm ?_)
  refine (like_visitAnew_plain pos' pos'' hright).trans ?_
  refine (hfind.bind fun slot => .refl _).trans ?_
  exact hreads.bind_again hagain ((engine.interpAnew fuel).combineInto scope op' value)

/-- The nodes of both assignments are those of the targets and of the value. -/
theorem knows_compound {L : Links} (hright : right = value ∨ ∃ p, right = .group value p)
    (h : ∀ e ∈ [.ref target, .ref target', value], L.Knows e) (op : AssignOp) (op' : BinaryOp)
    (pos pos' pos'' : Position) :
    L.Knows (.assign op target value pos) ∧
      L.Knows (.assign .plain target (.binary op' (.ref target') right pos') pos'') := by
  simp only [List.forall_mem_cons] at h
  obtain ⟨htarget, htarget', hvalue, -⟩ := h
  have hnodes : right.nodes = value.nodes := by
    rcases hright with rfl | ⟨p, rfl⟩ <;> rfl
  constructor
  · exact List.forall_mem_append.mpr ⟨htarget, hvalue⟩
  · refine List.forall_mem_append.mpr ⟨htarget, List.forall_mem_append.mpr ⟨htarget', ?_⟩⟩
    rw [hnodes]
    exact hvalue

/-- `t op= e` and `t = t op e` come to the same value, with the same printed text and the same
    store, or to faults of the same reason and message at the same machine, or neither of them ends;
    they may differ in the literals that are remembered. The target may be any that is made of
    names, literals, groups, elements and members, and `e` any expression, perhaps in parentheses of
    its own. -/
theorem visit_compound (engine : Engine) (scope : Nat) {op : AssignOp} {op' : BinaryOp}
    (hop : op.combines = some op') {target target' : Target} (htarget : target.onlyReads = true)
    (htarget' : target'.unplaced = target.unplaced) {value right : Expr}
    (hright : right = value ∨ ∃ p, right = .group value p) (pos pos' pos'' : Position)
    {m : Machine} (hm : m.Coherent)
    (hknown : ∀ e ∈ [.ref target, .ref target', value], (Links.listed m.nodes).Knows e) :
    op.spelling = op'.spelling ++ "=" ∧
    ∃ o o', Settles (fun fuel => visit engine fuel scope (.assign op target value pos) m) o ∧
      Settles (fun fuel => visit engine fuel scope
        (.assign .plain target (.binary op' (.ref target') right pos') pos'') m) o' ∧
      o.forgetful.SameButPlace o'.forgetful := by
  refine ⟨AssignOp.spelling_of_combines hop, ?_⟩
  obtain ⟨o, ho⟩ := visit_settles engine scope (.assign op target value pos) m
  obtain ⟨o', ho'⟩ := visit_settles engine scope
    (.assign .plain target (.binary op' (.ref target') right pos') pos'') m
  refine ⟨o, o', ho, ho', ?_⟩
  obtain ⟨enough, henough⟩ := Filter.eventually_atTop.mp ho
  obtain ⟨enough', henough'⟩ := Filter.eventually_atTop.mp ho'
  -- in parentheses the value is one step further down
  obtain ⟨fuel, fuel', hle, hle', hlike⟩ : ∃ fuel fuel',
      enough + enough' + sizeOf target + sizeOf target' ≤ fuel ∧
      enough + enough' + sizeOf target + sizeOf target' ≤ fuel' ∧
      (visitAnew engine (fuel' + 1) scope right).Like (visitAnew engine fuel scope value) := by
    rcases hright with rfl | ⟨p, rfl⟩
    · exact ⟨_ + 1, _, Nat.le_succ _, le_rfl, .refl _⟩
    · exact ⟨_, _, le_rfl, le_rfl, EvalM.Like.locating p _⟩
  have hsame := like_visitAnew_compound hop htarget htarget' (by omega) (by omega) (by omega) hlike
    pos pos' pos'' m
  have hend := henough (fuel + 1) (by omega)
  have hend' := henough' (fuel' + 3) (by omega)
  obtain ⟨hcompound, hplain⟩ := knows_compound hright hknown op op' pos pos' pos''
  rw [← hend, ← hend', visit_remembered engine _ scope hm hcompound,
    visit_remembered engine _ scope hm hplain]
  exact hsame.forgetful

/-- Two lists with a name each. -/
def twoLists : Store where
  frames := #[⟨none, 0, .ofList [("A", .array 0), ("B", .array 1)]⟩]
  arrays := #[#[.int 1], #[.int 10]]

/-- The target `A[0]` at some columns of the first line, its literal being a certain node. -/
def firstOfA (node col col' : Nat) : Target :=
  .index (.ref (.name "A" ⟨1, col⟩)) (.literal node .int "0" ⟨1, col'⟩) ⟨1, col⟩

/-- The value `(A = B; 3)`, which leaves `A` with the other list. -/
def otherList : Expr :=
  .group (.binary .sequence (.assign .plain (.name "A" ⟨1, 10⟩) (.ref (.name "B" ⟨1, 14⟩)) ⟨1, 12⟩)
    (.literal 2 .int "3" ⟨1, 17⟩) ⟨1, 15⟩) ⟨1, 9⟩

/-- `A[0] += (A = B; 3)` adds to the list that `A` stands for at the start, as does
    `A[0] = A[0] + (A = B; 3)`, where the `0` is written twice. -/
theorem visit_compound_otherList :
    let m : Machine := { store := twoLists, nodes := #[⟨.int, "0"⟩, ⟨.int, "0"⟩, ⟨.int, "3"⟩] }
    let compound := Expr.assign (.arith .add) (firstOfA 0 1 3) otherList ⟨1, 6⟩
    let plain := Expr.assign .plain (firstOfA 0 1 3)
      (.binary (.arith .add) (.ref (firstOfA 1 8 10)) otherList ⟨1, 13⟩) ⟨1, 6⟩
    (AssignOp.combines (.arith .add) = some (.arith .add) ∧ (firstOfA 0 1 3).onlyReads = true ∧
      (firstOfA 1 8 10).unplaced = (firstOfA 0 1 3).unplaced ∧ m.Coherent ∧
      (∀ e ∈ [.ref (firstOfA 0 1 3), .ref (firstOfA 1 8 10), otherList],
        (Links.listed m.nodes).Knows e) ∧
      (visit {} 6 0 compound m).machine?.map (fun m' => m'.store.arrays) =
        some #[#[.int 4], #[.int 10]]) ∧
    AssignOp.spelling (.arith .add) = BinaryOp.spelling (.arith .add) ++ "=" ∧
    ∃ o o', Settles (fun fuel => visit {} fuel 0 compound m) o ∧
      Settles (fun fuel => visit {} fuel 0 plain m) o' ∧
      o.forgetful.SameButPlace o'.forgetful := by
  intro m compound plain
  have hop : AssignOp.combines (.arith .add) = some (.arith .add) := rfl
  have htarget : (firstOfA 0 1 3).onlyReads = true := rfl
  have htarget' : (firstOfA 1 8 10).unplaced = (firstOfA 0 1 3).unplaced := rfl
  have hm : m.Coherent := by decide +kernel
  have hknown : ∀ e ∈ [.ref (firstOfA 0 1 3), .ref (firstOfA 1 8 10), otherList],
      (Links.listed m.nodes).Knows e := by decide +kernel
  refine ⟨⟨hop, htarget, htarget', hm, hknown, by decide +kernel⟩, ?_⟩
  exact visit_compound {} 0 hop htarget htarget' (.inl rfl) ⟨1, 6⟩ ⟨1, 13⟩ ⟨1, 6⟩ hm hknown

end Eval

end ExprLang
