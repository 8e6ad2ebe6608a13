import ExprLang.Proofs.Comparison
import ExprLang.Proofs.Monitor

/-!
# Runs on linked stores

The relation of two runs whose stores hold linked data under links that stay the same, the cells to
come included. The first run leaves alone all cells of its starting store that are not linked, and
it gets hold of functions of some kind only.
-/

namespace ExprLang

/-- Cells of one kind: those that are not related to any are as they were. -/
structure KeptCells {α : Type} (r : Nat → Nat → Prop) (xs ys : Array α) : Prop where
  size_le : xs.size ≤ ys.size
  same : ∀ a < xs.size, (∀ b, ¬ r a b) → ys[a]? = xs[a]?

namespace KeptCells

variable {α : Type} {r : Nat → Nat → Prop} {xs ys : Array α}

theorem refl (r : Nat → Nat → Prop) (xs : Array α) : KeptCells r xs xs := ⟨le_rfl, fun _ _ _ => rfl⟩

theorem push (h : KeptCells r xs ys) (y : α) : KeptCells r xs (ys.push y) where
  size_le := by
    rw [Array.size_push]
    exact Nat.le_succ_of_le h.size_le
  same := by
    intro a ha hr
    have hne : a ≠ ys.size := Nat.ne_of_lt (Nat.lt_of_lt_of_le ha h.size_le)
    rw [Array.getElem?_push, if_neg hne]
    exact h.same a ha hr

theorem modify (h : KeptCells r xs ys) {a b : Nat} (hab : r a b) (f : α → α) :
    KeptCells r xs (ys.modify a f) where
  size_le := by
    rw [Array.size_modify]
    exact h.size_le
  same := by
    intro a' ha' hr
    have hne : a ≠ a' := by
      rintro rfl
      exact hr b hab
    rw [Array.getElem?_modify, if_neg hne]
    exact h.same a' ha' hr

end KeptCells

/-- A store whose cells that are not linked are as they were in the first store. -/
structure Store.Kept (L : Links) (s s' : Store) : Prop where
  frames : KeptCells L.frames s.frames s'.frames
  arrays : KeptCells L.arrays s.arrays s'.arrays
  objects : KeptCells L.objects s.objects s'.objects
  functions : KeptCells L.functions s.functions s'.functions

namespace Store.Kept

theorem refl (L : Links) (s : Store) : s.Kept L s :=
  ⟨.refl _ _, .refl _ _, .refl _ _, .refl _ _⟩

variable {L : Links} {s s' : Store} (h : s.Kept L s') {a b : Nat}
include h

theorem bind (hab : L.frames a b) (key : Text) (v : Value) : s.Kept L (s'.bind a key v) := by
  refine ⟨?_, h.arrays, h.objects, h.functions⟩
  simp only [Store.bind]
  exact h.frames.modify hab _

theorem setElement (hab : L.arrays a b) (index : Nat) (v : Value) :
    s.Kept L (s'.setElement a index v) := by
  refine ⟨h.frames, ?_, h.objects, h.functions⟩
  simp only [Store.setElement]
  exact h.arrays.modify hab _

theorem setMember (hab : L.objects a b) (key : Text) (v : Value) :
    s.Kept L (s'.setMember a key v) := by
  refine ⟨h.frames, h.arrays, ?_, h.functions⟩
  simp only [Store.setMember]
  exact h.objects.modify hab _

end Store.Kept

namespace StoreRel

/-- Stores that hold linked data, the first of which began as `start`. -/
def region (L : Links) (ok : Function → Prop) (start : Store) : StoreRel where
  rel := fun s t => s.Linked L ok t ∧ start.Kept L s
  links := fun _ _ => L

variable {L : Links} {ok : Function → Prop} (start : Store)

theorem region_reads (hL : L.Ordered) : (region L ok start).Reads ok where
  elements := fun h hab => h.1.elements hab
  members := fun h hab => h.1.members hab
  bindings := fun h hab => h.1.bindings hab
  owner := fun h hab key => h.1.owner hL hab key
  root := fun h hab => h.1.root hab
  root_eq := fun h hab => hL.frames.eq_iff (h.1.root hab) hab
  function := fun h hab => h.1.functions.get hab
  text := fun h hv => h.1.text_eq hL hv
  equal := fun h hv hv' => h.1.equal?_eq hL hv hv'

/-- The links stay, so a change keeps the relation if it keeps both its parts. -/
theorem region_keeps {s t s' t' : Store} (h : s'.Linked L ok t') (hkept : start.Kept L s') :
    (region L ok start).Keeps s t s' t' :=
  ⟨⟨h, hkept⟩, le_rfl⟩

theorem region_writes (hL : L.Ordered)
    (hclosure : ∀ arity body scope, ok (.closure arity body scope)) :
    (region L ok start).Writes where
  newArray := by
    rintro s t xs ys ⟨h, hk⟩ hxs
    obtain ⟨hnew, hv⟩ := h.newArray hL hxs
    exact ⟨region_keeps start hnew ⟨hk.frames, hk.arrays.push xs, hk.objects, hk.functions⟩, hv⟩
  newObject := by
    rintro s t xs ys ⟨h, hk⟩ hxs _
    obtain ⟨hnew, hv⟩ := h.newObject hL hxs
    exact ⟨region_keeps start hnew ⟨hk.frames, hk.arrays, hk.objects.push xs, hk.functions⟩, hv⟩
  newClosure := by
    rintro s t a b ⟨h, hk⟩ hab arity body hbody
    obtain ⟨hnew, hv⟩ := h.newFunction hL (.closure arity hbody hab) (hclosure arity body a)
    exact ⟨region_keeps start hnew ⟨hk.frames, hk.arrays, hk.objects, hk.functions.push _⟩, hv⟩
  newFrame := by
    rintro s t a b ⟨h, hk⟩ hab
    obtain ⟨hnew, hframe⟩ := h.newFrame hL hab
    exact ⟨region_keeps start hnew ⟨hk.frames.push _, hk.arrays, hk.objects, hk.functions⟩, hframe⟩
  bind := by
    rintro s t a b v w ⟨h, hk⟩ hab hv key
    exact region_keeps start (h.bind hL hab hv key) (hk.bind hab key v)
  setElement := by
    rintro s t a b v w ⟨h, hk⟩ hab hv index
    exact region_keeps start (h.setElement hL hab hv index) (hk.setElement hab index v)
  setMember := by
    rintro s t a b v w ⟨h, hk⟩ hab hv key
    exact region_keeps start (h.setMember hL hab hv key) (hk.setMember hab key v)

end StoreRel

/-! ## Literals -/

/-- Literals that are remembered with values that refer to no cell. -/
def Literal.AllScalar (known : List (Nat × Value)) : Prop := ∀ p ∈ known, p.2.IsScalar

namespace Literal.AllScalar

variable {known : List (Nat × Value)} (h : AllScalar known) {l : Literal} {node : Nat}
include h

theorem lookup {v : Value} (hv : known.lookup node = some v) : v.IsScalar :=
  h (node, v) (Assoc.mem_of_lookup hv)

theorem recalled {v : Value} (hv : l.recalled node known = .ok v) : v.IsScalar := by
  unfold Literal.recalled at hv
  cases hl : known.lookup node with
  | some w =>
    rw [hl] at hv
    cases hv
    exact h.lookup hl
  | none =>
    rw [hl] at hv
    exact Literal.isScalar_of_value hv

theorem remember : AllScalar (l.remember node known) := by
  unfold Literal.remember
  cases known.lookup node with
  | some w => exact h
  | none =>
    cases hv : l.value with
    | error cause => exact h
    | ok v => exact List.forall_mem_cons.mpr ⟨Literal.isScalar_of_value hv, h⟩

end Literal.AllScalar

namespace Simulation

/-- Runs on related stores that remember the same literals and open calls at the same time, both
    from `depth` open calls on. -/
def inStep {R : StoreRel} {admits : Function → Prop} (hreads : R.Reads admits) (hwrites : R.Writes)
    (hnodes : ∀ s t l node, (R.links s t).nodes l node) (depth : Nat) (exhausts : Prop) :
    Simulation where
  stores := fun _ => R
  admits := admits
  reads := fun _ => hreads
  writes := fun _ => hwrites
  literals := fun _ ks ls => ks = ls ∧ Literal.AllScalar ks
  literals_nil := fun _ => ⟨rfl, nofun⟩
  recalled := fun h _ => by rw [h.1]
  recalled_linked := fun h _ hv => (h.2.recalled hv).linked
  remember := fun h _ => ⟨by rw [h.1], h.2.remember⟩
  numbered := fun _ h => ⟨h, le_rfl⟩
  numbered_known := fun _ _ => hnodes _ _ _ _
  literals_mono := fun _ h => h
  depth := fun calls d d' => d' = d ∧ d = depth + calls
  lost := fun _ => False
  lost_located := fun h _ => h
  lost_leaving := fun h _ => h
  exhausts := exhausts

section InStep

variable {R : StoreRel} {admits : Function → Prop} {hreads : R.Reads admits} {hwrites : R.Writes}
  {hnodes : ∀ s t l node, (R.links s t).nodes l node} {depth k : Nat} {exhausts : Prop}

/-- Calls are opened and refused at the same time. -/
theorem inStep_nested (limit? : Option Nat) {L : Links} {x y : Nat → EvalM Value}
    (h : EvalM.mayEnter limit? (depth + k) = true →
      (inStep hreads hwrites hnodes depth exhausts).Sim (k + 1) L Value.Linked x y) :
    (inStep hreads hwrites hnodes depth exhausts).Sim k L Value.Linked
      (fun i => EvalM.nested limit? (x i)) (fun i => EvalM.nested limit? (y i)) :=
  Sim.nested (fun _ _ _ => Iff.rfl) limit? h

theorem inStep_monitors (engine : Engine) :
    (inStep hreads hwrites hnodes depth exhausts).Monitors (.plain engine) (.plain engine) where
  around := id
  opening := fun h => inStep_nested _ fun _ => h

end InStep

/-- Runs on linked stores, the first of them from `start`. -/
def region {L : Links} (hL : L.Ordered) (ok : Function → Prop)
    (hclosure : ∀ arity body scope, ok (.closure arity body scope)) (start : Store) (depth : Nat)
    (exhausts : Prop) : Simulation :=
  inStep (StoreRel.region_reads start hL) (StoreRel.region_writes start hL hclosure)
    (fun _ _ => hL.nodes) depth exhausts

theorem region_start {L : Links} {hL : L.Ordered} {ok : Function → Prop}
    {hclosure : ∀ arity body scope, ok (.closure arity body scope)} {exhausts : Prop}
    {start t : Store} (h : start.Linked L ok t) (nodes : Array Literal) :
    (region hL ok hclosure start 0 exhausts).Machines 0 { store := start, nodes }
      { store := t, nodes } :=
  ⟨⟨h, .refl _ _⟩, rfl, rfl, rfl, ⟨rfl, nofun⟩, ⟨rfl, rfl⟩⟩

end Simulation

end ExprLang
