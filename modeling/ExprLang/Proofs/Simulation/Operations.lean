import ExprLang.Proofs.Simulation

/-!
# Operations on related machines

Slots, literals and operators read and write linked data on related machines, so they end alike.
-/

namespace ExprLang

/-- Checks that end alike: with related values or with the same cause. -/
inductive Checked {α β : Type} (A : α → β → Prop) : Except Cause α → Except Cause β → Prop
  | ok {a : α} {b : β} (h : A a b) : Checked A (.ok a) (.ok b)
  | error (cause : Cause) : Checked A (.error cause) (.error cause)

theorem Checked.imp {α β : Type} {A B : α → β → Prop} {x : Except Cause α} {y : Except Cause β}
    (h : Checked A x y) (hAB : ∀ a b, A a b → B a b) : Checked B x y := by
  cases h with
  | ok hab => exact .ok (hAB _ _ hab)
  | error cause => exact .error cause

namespace StoreRel.Reads

variable {R : StoreRel} {admits : Function → Prop} (hR : R.Reads admits) {s t : Store}
  (h : R.rel s t)
include hR h

theorem lookup {a b : Nat} (hab : (R.links s t).frames a b) (name : Text) :
    Option.Rel (Value.Linked (R.links s t)) (s.lookup? a name) (t.lookup? b name) := by
  unfold Store.lookup?
  rcases rel_cases (hR.owner h hab name) with ⟨hs, ht⟩ | ⟨o, o', hs, ht, hoo⟩
  · rw [hs, ht]
    exact .none
  · rw [hs, ht]
    exact (hR.bindings h hoo).get? name

theorem size_elements {a b : Nat} (hab : (R.links s t).arrays a b) :
    (s.elements a).size = (t.elements b).size := by
  simpa using List.Forall₂.length_eq (hR.elements h hab)

theorem truthy {v w : Value} (hv : v.Linked (R.links s t) w) : s.truthy? v = t.truthy? w := by
  cases hv with
  | array ha => simp only [Store.truthy?, Array.isEmpty, hR.size_elements h ha]
  | object ho => simp only [Store.truthy?, (hR.members h ho).size_eq]
  | _ => rfl

theorem slotRead {x y : Slot} (hxy : x.Linked (R.links s t) y) :
    Checked (Value.Linked (R.links s t)) (x.read s) (y.read t) := by
  cases hxy with
  | name hab key =>
    unfold Slot.read
    rcases rel_cases (hR.lookup h hab key) with ⟨hs, ht⟩ | ⟨v, w, hs, ht, hvw⟩
    · simp only [hs, ht]
      exact .error _
    · simp only [hs, ht]
      exact .ok hvw
  | @element a b hab index =>
    have hget := rel_getElem? (hR.elements h hab) index.toInt.toNat
    rw [Array.getElem?_toList, Array.getElem?_toList] at hget
    simp only [Slot.read, hR.size_elements h hab]
    split
    · rcases rel_cases hget with ⟨hs, ht⟩ | ⟨v, w, hs, ht, hvw⟩
      · simp only [hs, ht]
        exact .error _
      · simp only [hs, ht]
        exact .ok hvw
    · exact .error _
  | member hab key =>
    unfold Slot.read
    rcases rel_cases ((hR.members h hab).get? key) with ⟨hs, ht⟩ | ⟨v, w, hs, ht, hvw⟩
    · simp only [hs, ht]
      exact .error _
    · simp only [hs, ht]
      exact .ok hvw
  | immediate hvw => exact .ok hvw

theorem slotOfIndex {v w v' w' : Value} (hv : v.Linked (R.links s t) w)
    (hv' : v'.Linked (R.links s t) w') :
    Checked (Slot.Linked (R.links s t)) (Slot.ofIndex s v v') (Slot.ofIndex t w w') := by
  cases hv with
  | array ha =>
    cases hv' with
    | int n => exact .ok (.element ha n)
    | _ => exact .error _
  | object ho =>
    rw [Slot.ofIndex, Slot.ofIndex, hR.text h hv']
    exact .ok (.member ho _)
  | scope hf =>
    rw [Slot.ofIndex, Slot.ofIndex, hR.text h hv']
    exact .ok (.name hf _)
  | int n => exact .ok (.immediate (.int n))
  | double x => exact .ok (.immediate (.double x))
  | text x => exact .ok (.immediate (.text x))
  | function hf => exact .ok (.immediate (.function hf))

theorem texts {vs ws : List Value} (hvs : Value.AllLinked (R.links s t) vs ws) :
    vs.map s.text = ws.map t.text :=
  hvs.map_eq fun _ _ hv => hR.text h hv

theorem len {v w : Value} (hv : v.Linked (R.links s t) w) : Interp.len s v = Interp.len t w := by
  cases hv with
  | array ha => simp only [Interp.len, hR.size_elements h ha]
  | object ho => simp only [Interp.len, (hR.members h ho).size_eq]
  | _ => rfl

end StoreRel.Reads

theorem Slot.linked_ofMember {L : Links} {v w : Value} (h : v.Linked L w) (name : Text) :
    (ofMember v name).Linked L (ofMember w name) := by
  cases h with
  | object ho => exact .member ho name
  | scope hf => exact .name hf name
  | int n => exact .immediate (.int n)
  | double x => exact .immediate (.double x)
  | text x => exact .immediate (.text x)
  | array ha => exact .immediate (.array ha)
  | function hf => exact .immediate (.function hf)

/-- Writing linked values to linked slots keeps stores related. -/
theorem StoreRel.Writes.slotWrite {R : StoreRel} (hW : R.Writes) {admits : Function → Prop}
    (hR : R.Reads admits) {s t : Store}
    (h : R.rel s t) {x y : Slot} (hxy : x.Linked (R.links s t) y) {v w : Value}
    (hv : v.Linked (R.links s t) w) :
    Checked (fun p q => R.Keeps s t p.2 q.2 ∧ p.1.Linked (R.links p.2 q.2) q.1)
      (x.write s v) (y.write t w) := by
  cases hxy with
  | @name a b hab key =>
    have howner : (R.links s t).frames ((s.owner? key a).getD a) ((t.owner? key b).getD b) := by
      rcases rel_cases (hR.owner h hab key) with ⟨hs, ht⟩ | ⟨o, o', hs, ht, hoo⟩
      · rw [hs, ht]
        exact hab
      · rw [hs, ht]
        exact hoo
    have hkeep := hW.bind h howner hv key
    exact .ok ⟨hkeep, .name (hkeep.links.frames hab) key⟩
  | element hab index =>
    simp only [Slot.write, hR.size_elements h hab]
    split
    · have hkeep := hW.setElement h hab hv index.toInt.toNat
      exact .ok ⟨hkeep, .element (hkeep.links.arrays hab) index⟩
    · exact .error _
  | member hab key =>
    have hkeep := hW.setMember h hab hv key
    exact .ok ⟨hkeep, .member (hkeep.links.objects hab) key⟩
  | immediate _ => exact .ok ⟨.refl h, .immediate hv⟩

/-! ## Operators on values -/

namespace Eval

variable {L : Links} {v w v' w' r : Value}

theorem arithmetic_eq (hv : v.Linked L w) (hv' : v'.Linked L w') (op : ArithOp) :
    arithmetic op v v' = arithmetic op w w' := by
  cases hv <;> cases hv' <;> cases op <;> rfl

theorem applyOrder_eq (hv : v.Linked L w) (hv' : v'.Linked L w') (op : OrderOp) :
    applyOrder op v v' = applyOrder op w w' := by
  cases hv <;> cases hv' <;> rfl

theorem applyStep_eq (hv : v.Linked L w) (op : StepOp) : applyStep op v = applyStep op w := by
  cases hv <;> cases op <;> rfl

theorem whole_eq (hv : v.Linked L w) (mode : Double.Rounding) :
    Interp.whole mode v = Interp.whole mode w := by
  cases hv <;> rfl

theorem toDouble?_eq (hv : v.Linked L w) : v.toDouble? = w.toDouble? := by
  cases hv <;> rfl

theorem isScalar_of_numeric {operator : String} {f : Int64 → Int64 → Int64}
    {g : Double → Double → Double} (h : numeric operator f g v w = .ok r) : r.IsScalar := by
  unfold numeric at h
  split at h
  · cases h
    trivial
  · split at h <;> cases h
    trivial

theorem isScalar_of_integral {operator : String} {f : Int64 → Int64 → Except Cause Int64}
    (h : integral operator f v w = .ok r) : r.IsScalar := by
  unfold integral at h
  split at h
  · split at h <;> cases h
    trivial
  · cases h

theorem isScalar_of_divide (h : divide v w = .ok r) : r.IsScalar := by
  unfold divide at h
  split at h
  · split at h <;> cases h
    trivial
  · split at h <;> cases h
    trivial

theorem isScalar_of_power (h : power v w = .ok r) : r.IsScalar := by
  unfold power at h
  split at h
  · split at h
    · cases h
    · split at h
      · split at h <;> cases h <;> trivial
      · cases h
        trivial
  · cases h

theorem isScalar_of_arithmetic {op : ArithOp} (h : arithmetic op v w = .ok r) : r.IsScalar := by
  cases op with
  | add | sub | mul => exact isScalar_of_numeric h
  | div => exact isScalar_of_divide h
  | pow => exact isScalar_of_power h
  | mod | shiftLeft | shiftRight | shiftRightUnsigned | bitAnd | bitXor | bitOr =>
    simp only [arithmetic] at h
    exact isScalar_of_integral h

theorem isScalar_of_applyOrder {op : OrderOp} (h : applyOrder op v w = .ok r) : r.IsScalar := by
  unfold applyOrder at h
  split at h
  · cases h
    trivial
  · cases h
    trivial
  · split at h <;> cases h
    trivial

theorem isScalar_of_applyStep {op : StepOp} (h : applyStep op v = .ok r) : r.IsScalar := by
  unfold applyStep at h
  split at h <;> cases h <;> trivial

theorem isScalar_of_whole {mode : Double.Rounding} (h : Interp.whole mode v = .ok r) :
    r.IsScalar := by
  unfold Interp.whole at h
  split at h
  · cases h
    trivial
  · split at h
    · simp only at h
      split at h <;> cases h <;> trivial
    · cases h
      trivial
  · cases h

theorem isScalar_of_len {s : Store} (h : Interp.len s v = .ok r) : r.IsScalar := by
  unfold Interp.len at h
  split at h <;> cases h <;> trivial

end Eval

theorem Literal.isScalar_of_value {l : Literal} {v : Value} (h : l.value = .ok v) :
    v.IsScalar := by
  simp only [Literal.value, Literal.wholeNumber] at h
  split at h <;> split at h <;> cases h <;> trivial

/-- Meeting a literal node, in terms of what is remembered before and after. -/
theorem Eval.literal_eq (node : Nat) (l : Literal) (m : Machine) :
    Eval.literal node l m =
      match l.recalled node m.literals with
      | .ok v => .done v { m with literals := l.remember node m.literals }
      | .error cause => .failed (.of cause) m := by
  unfold Eval.literal Literal.recalled Literal.remember
  cases m.literals.lookup node with
  | some v => rfl
  | none => cases l.value <;> rfl

/-! ## Operations as computations -/

namespace Simulation.Sim

variable {S : Simulation} {k : Nat} {L : Links} {α β : Type} {A : Links → α → β → Prop}

theorem check {x : Except Cause α} {y : Except Cause β}
    (h : ∀ L', L ≤ L' → Checked (A L') x y) :
    S.Sim k L A (fun _ => EvalM.check x) (fun _ => EvalM.check y) := by
  cases h L (le_refl L) with
  | ok _ =>
    refine Sim.pure fun L' hL => ?_
    cases h L' hL with
    | ok hab => exact hab
  | error cause => exact Sim.failWith cause

/-- A check whose outcome does not depend on where the data are. -/
theorem checkScalar {x y : Except Cause Value} (hxy : x = y)
    (hscalar : ∀ v, x = .ok v → v.IsScalar) :
    S.Sim k L Value.Linked (fun _ => EvalM.check x) (fun _ => EvalM.check y) := by
  subst hxy
  cases x with
  | ok v => exact Sim.pure fun _ _ => (hscalar v rfl).linked
  | error cause => exact Sim.failWith cause

theorem lift (x : Except Fault α) :
    S.Sim k L Same (fun _ => EvalM.lift x) (fun _ => EvalM.lift x) := by
  cases x with
  | ok a => exact Sim.pure fun _ _ => rfl
  | error f => exact Sim.fail f

theorem literal {l : Literal} {node : Nat} (h : L.nodes l node) :
    S.Sim k L Value.Linked (fun _ => Eval.literal node l) (fun _ => Eval.literal node l) := by
  intro m n hm hL
  simp only [Eval.literal_eq, ← S.recalled hm.literals (hL.nodes h)]
  cases hl : l.recalled node m.literals with
  | ok v =>
    exact .done (hm.withLiterals (S.remember hm.literals (hL.nodes h))) hL
      (S.recalled_linked hm.literals hm.store hl)
  | error cause => exact .failed _ hm hL

theorem read {x y : Slot} (hxy : x.Linked L y) :
    S.Sim k L Value.Linked (fun _ => Interp.read x) (fun _ => Interp.read y) := by
  refine Sim.withStore fun table s t hst hL => ?_
  exact Sim.check fun L' hL' =>
    ((S.reads _).slotRead hst (hxy.mono hL)).imp fun _ _ hvw => hvw.mono hL'

theorem write {x y : Slot} (hxy : x.Linked L y) {v w : Value} (hv : v.Linked L w) :
    S.Sim k L Slot.Linked (fun _ => Interp.write x v) (fun _ => Interp.write y w) := by
  intro m n hm hL
  have h := (S.writes _).slotWrite (S.reads _) hm.store (hxy.mono hL) (hv.mono hL)
  simp only [Interp.write]
  revert h
  generalize x.write m.store v = p
  generalize y.write n.store w = q
  rintro (@⟨⟨x', s⟩, ⟨y', t⟩, hkeep, hslot⟩ | cause)
  · exact .done (hm.withStore hkeep.rel) (hL.trans hkeep.links) hslot
  · exact .failed _ hm hL

theorem truthOf (operator : String) {v w : Value} (hv : v.Linked L w) :
    S.Sim k L Same (fun _ => Eval.truthOf operator v) (fun _ => Eval.truthOf operator w) := by
  refine Sim.withStore fun table s t hst hL => ?_
  rw [(S.reads _).truthy hst (hv.mono hL), hv.kind_eq]
  cases t.truthy? w with
  | some b => exact Sim.pure fun _ _ => rfl
  | none => exact Sim.failWith _

theorem newArray {xs ys : Array Value} (h : Value.AllLinked L xs.toList ys.toList) :
    S.Sim k L Value.Linked (fun _ => EvalM.update fun s => s.newArray xs)
      (fun _ => EvalM.update fun s => s.newArray ys) := by
  refine Sim.update fun table s t hst hL => ?_
  exact (S.writes _).newArray hst (h.mono hL)

theorem applyUnary (op : UnaryOp) {v w : Value} (hv : v.Linked L w) :
    S.Sim k L Value.Linked (fun _ => Eval.applyUnary op v) (fun _ => Eval.applyUnary op w) := by
  cases op with
  | not =>
    refine Sim.bind (Sim.truthOf _ hv) fun L' _ b c hbc => ?_
    cases hbc
    exact Sim.pure fun _ _ => Value.linked_ofBool _ _
  | bitNot =>
    cases hv with
    | int n => exact Sim.pure fun _ _ => .int _
    | _ => exact Sim.failWith _
  | plus =>
    cases hv with
    | int n => exact Sim.pure fun _ _ => .int _
    | double x => exact Sim.pure fun _ _ => .double _
    | _ => exact Sim.failWith _
  | minus =>
    cases hv with
    | int n => exact Sim.pure fun _ _ => .int _
    | double x => exact Sim.pure fun _ _ => .double _
    | _ => exact Sim.failWith _

theorem applyEquality (op : EqualityOp) {v w v' w' : Value} (hv : v.Linked L w)
    (hv' : v'.Linked L w') :
    S.Sim k L Value.Linked (fun _ => Eval.applyEquality op v v')
      (fun _ => Eval.applyEquality op w w') := by
  refine Sim.withStore fun table s t hst hL => ?_
  rw [(S.reads _).equal hst (hv.mono hL) (hv'.mono hL)]
  cases t.equal? w w' with
  | some b => exact Sim.pure fun _ _ => Value.linked_ofBool _ _
  | none => exact Sim.failWith _

theorem applyArith (op : ArithOp) {v w v' w' : Value} (hv : v.Linked L w)
    (hv' : v'.Linked L w') :
    S.Sim k L Value.Linked (fun _ => Eval.applyArith op v v')
      (fun _ => Eval.applyArith op w w') := by
  have htext {v w : Value} (h : v.Linked L w) : Eval.isText v = Eval.isText w := by
    cases h <;> rfl
  refine Sim.withStore fun table s t hst hL => ?_
  have hplain : S.Sim k ((S.stores table).links s t) Value.Linked
      (fun _ => EvalM.check (Eval.arithmetic op v v'))
      (fun _ => EvalM.check (Eval.arithmetic op w w')) :=
    Sim.checkScalar (Eval.arithmetic_eq hv hv' op) fun _ => Eval.isScalar_of_arithmetic
  rw [htext hv, htext hv', (S.reads _).text hst (hv.mono hL), (S.reads _).text hst (hv'.mono hL)]
  split
  · exact Sim.pure fun _ _ => .text _
  · -- two arrays are joined to a new one; all else is a matter of the values alone
    cases op with
    | add =>
      cases hv with
      | @array a b ha =>
        cases hv' with
        | @array a' b' ha' =>
          refine Sim.update fun table' s' t' hst' hL' => ?_
          have hjoin : Value.AllLinked ((S.stores table').links s' t')
              (s'.elements a ++ s'.elements a').toList
              (t'.elements b ++ t'.elements b').toList := by
            rw [Array.toList_append, Array.toList_append]
            exact List.rel_append ((S.reads _).elements hst' (hL'.arrays (hL.arrays ha)))
              ((S.reads _).elements hst' (hL'.arrays (hL.arrays ha')))
          exact (S.writes _).newArray hst' hjoin
        | _ => exact hplain
      | _ => exact hplain
    | _ => exact hplain

end Simulation.Sim

end ExprLang
