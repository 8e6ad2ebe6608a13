import ExprLang.Proofs.Monitor

/-!
# Runs on identical stores

The simplest relation of two runs: they have the same store at all times, perhaps one of a property
that lasts, and every cell stands for itself. Such runs can differ only in the number of open calls,
in how a monitor or an engine takes it, and in their fuel: what evaluation comes to does not depend
on fuel (`Eval.visit_settles`).
-/

namespace ExprLang

/-- A property of stores that no step of evaluation takes away: the nodes of all closures are known,
    as are those of the closures that are added. -/
structure Store.Lasting (nodes : Literal → Nat → Prop) (P : Store → Prop) : Prop where
  known : ∀ {s : Store}, P s → ∀ f ∈ s.functions, (Links.equal nodes).KnowsIn f
  newArray : ∀ {s : Store}, P s → ∀ elems, P (s.newArray elems).2
  newObject : ∀ {s : Store}, P s → ∀ members, P (s.newObject members).2
  newClosure : ∀ {s : Store}, P s → ∀ arity {body} scope, (Links.equal nodes).Knows body →
    P (s.newFunction (.closure arity body scope)).2
  newFrame : ∀ {s : Store}, P s → ∀ parent, P (s.newFrame parent).2
  bind : ∀ {s : Store}, P s → ∀ id name v, P (s.bind id name v)
  setElement : ∀ {s : Store}, P s → ∀ id index v, P (s.setElement id index v)
  setMember : ∀ {s : Store}, P s → ∀ id key v, P (s.setMember id key v)

theorem Store.lasting_true : Store.Lasting (fun _ _ => True) (fun _ => True) where
  known := fun _ f _ => Links.same_knowsIn f
  newArray := fun _ _ => trivial
  newObject := fun _ _ => trivial
  newClosure := fun _ _ _ _ _ => trivial
  newFrame := fun _ _ => trivial
  bind := fun _ _ _ _ => trivial
  setElement := fun _ _ _ _ => trivial
  setMember := fun _ _ _ _ => trivial

namespace StoreRel

/-- A store of a certain property beside itself. -/
def lasting (nodes : Literal → Nat → Prop) (P : Store → Prop) : StoreRel where
  rel := fun s t => s = t ∧ P s
  links := fun _ _ => .equal nodes

variable {nodes : Literal → Nat → Prop} {P : Store → Prop}

theorem lasting_reads (hP : Store.Lasting nodes P) :
    (lasting nodes P).Reads (fun _ => True) where
  elements := by rintro s _ a _ ⟨rfl, -⟩ rfl; exact Value.allLinked_equal.mpr rfl
  members := by rintro s _ a _ ⟨rfl, -⟩ rfl; exact Members.linked_equal.mpr rfl
  bindings := by rintro s _ a _ ⟨rfl, -⟩ rfl; exact Members.linked_equal.mpr rfl
  owner := by
    rintro s _ a _ ⟨rfl, -⟩ rfl key
    cases s.owner? key a with
    | none => exact .none
    | some id => exact .some rfl
  root := by rintro s _ a _ ⟨rfl, -⟩ rfl; rfl
  root_eq := by rintro s _ a _ ⟨rfl, -⟩ rfl; rfl
  function := by
    rintro s _ a _ ⟨rfl, hs⟩ rfl
    cases hf : s.functions[a]? with
    | none => exact .none
    | some f =>
      have hknown := hP.known hs f (Array.mem_of_getElem? hf)
      exact .some ⟨Function.linked_equal.mpr ⟨rfl, hknown⟩, trivial⟩
  text := by rintro s _ v w ⟨rfl, -⟩ hv; rw [Value.linked_equal.mp hv]
  equal := by
    rintro s _ v w v' w' ⟨rfl, -⟩ hv hv'
    rw [Value.linked_equal.mp hv, Value.linked_equal.mp hv']

/-- A change of a store beside itself that keeps the property. -/
theorem lasting_keeps {s t s' : Store} (hP : P s') : (lasting nodes P).Keeps s t s' s' :=
  ⟨⟨rfl, hP⟩, le_refl _⟩

theorem lasting_writes (hP : Store.Lasting nodes P) : (lasting nodes P).Writes where
  newArray := by
    rintro s _ xs ys ⟨rfl, hs⟩ hxs
    obtain rfl : xs = ys := Array.toList_inj.mp (Value.allLinked_equal.mp hxs)
    exact ⟨lasting_keeps (hP.newArray hs xs), Value.linked_equal.mpr rfl⟩
  newObject := by
    rintro s _ xs ys ⟨rfl, hs⟩ hxs _
    obtain rfl := Members.linked_equal.mp hxs
    exact ⟨lasting_keeps (hP.newObject hs xs), Value.linked_equal.mpr rfl⟩
  newClosure := by
    rintro s _ a _ ⟨rfl, hs⟩ rfl arity body hbody
    exact ⟨lasting_keeps (hP.newClosure hs arity a hbody), Value.linked_equal.mpr rfl⟩
  newFrame := by
    rintro s _ a _ ⟨rfl, hs⟩ rfl
    exact ⟨lasting_keeps (hP.newFrame hs a), rfl⟩
  bind := by
    rintro s _ a _ v w ⟨rfl, hs⟩ rfl hv key
    obtain rfl := Value.linked_equal.mp hv
    exact lasting_keeps (hP.bind hs a key v)
  setElement := by
    rintro s _ a _ v w ⟨rfl, hs⟩ rfl hv index
    obtain rfl := Value.linked_equal.mp hv
    exact lasting_keeps (hP.setElement hs a index v)
  setMember := by
    rintro s _ a _ v w ⟨rfl, hs⟩ rfl hv key
    obtain rfl := Value.linked_equal.mp hv
    exact lasting_keeps (hP.setMember hs a key v)

end StoreRel

namespace Outcome

variable {α : Type}

/-- An outcome with another number of open calls at the end. -/
def withDepth (depth : Nat) : Outcome α → Outcome α
  | .done a m => .done a { m with depth := depth }
  | .failed f m => .failed f { m with depth := depth }
  | .outOfFuel => .outOfFuel

theorem withDepth_withDepth (o : Outcome α) (depth depth' : Nat) :
    (o.withDepth depth).withDepth depth' = o.withDepth depth' := by
  cases o <;> rfl

theorem withDepth_ne_outOfFuel {o : Outcome α} {depth : Nat} (h : o ≠ .outOfFuel) :
    o.withDepth depth ≠ .outOfFuel := by
  cases o with
  | done a m => exact nofun
  | failed f m => exact nofun
  | outOfFuel => exact absurd rfl h

end Outcome

namespace Simulation

/-- Runs on identical stores of a lasting property, with related numbers of open calls. Nothing is
    asked of the second run if the first fails and `onFault` is true, or if the first runs out of
    fuel and `onFuel` is true. -/
def lasting {P : Store → Prop} (hP : Store.Lasting (fun _ _ => True) P)
    (depth : Nat → Nat → Nat → Prop) (onFault onFuel : Prop) : Simulation where
  stores := fun _ => .lasting (fun _ _ => True) P
  admits := fun _ => True
  reads := fun _ => StoreRel.lasting_reads hP
  writes := fun _ => StoreRel.lasting_writes hP
  literals := fun _ => Eq
  literals_nil := fun _ => rfl
  recalled := fun h _ => by rw [h]
  recalled_linked := fun _ _ _ => Value.linked_equal.mpr rfl
  remember := fun h _ => by rw [h]
  numbered := fun _ h => ⟨h, le_rfl⟩
  numbered_known := fun _ _ => trivial
  literals_mono := fun _ h => h
  depth := depth
  lost := fun
    | none => onFuel
    | some _ => onFault
  lost_located := fun h _ => h
  lost_leaving := fun h _ => h
  exhausts := True

/-- Runs on identical stores, of which nothing more is asked. -/
def identical (depth : Nat → Nat → Nat → Prop) (onFault onFuel : Prop) : Simulation :=
  lasting Store.lasting_true depth onFault onFuel

variable {depth : Nat → Nat → Nat → Prop} {onFault onFuel : Prop} {k : Nat}

theorem machines_identical {m : Machine} {d : Nat} (h : depth k m.depth d) :
    (identical depth onFault onFuel).Machines k m { m with depth := d } :=
  ⟨⟨rfl, trivial⟩, rfl, rfl, rfl, rfl, h⟩

/-- Related machines differ in the number of open calls only. -/
theorem Machines.eq_of_identical {m n : Machine}
    (h : (identical depth onFault onFuel).Machines k m n) : n = { m with depth := n.depth } := by
  obtain ⟨store, out, log, _, nodes, literals⟩ := m
  obtain ⟨⟨hstore, -⟩, hout, hlog, hnodes, hliterals, -⟩ := h
  dsimp only at hstore hout hlog hnodes
  subst hstore hout hlog hnodes
  cases (show literals = n.literals from hliterals)
  rfl

/-- The endings of related runs differ in the number of open calls only. -/
theorem EndAlike.eq_of_identical {L : Links} {o o' : Outcome Value}
    (h : (identical depth False onFuel).EndAlike k L Value.Linked (fun _ => o) (fun _ => o'))
    (hend : onFuel → o ≠ .outOfFuel) {d : Nat} (hdepth : ∀ n n', depth k n n' → n' = d) :
    o' = o.withDepth d := by
  have hends := h.ends
  cases o with
  | done v m =>
    obtain ⟨w, n, hsettle, hm, -, hv⟩ := hends
    obtain rfl := hsettle.eq_const
    rw [Outcome.withDepth, ← hdepth _ _ hm.depth, ← hm.eq_of_identical, Value.linked_equal.mp hv]
  | failed f m =>
    obtain hlost | ⟨n, hsettle, hm, -⟩ := hends
    · exact hlost.elim
    · obtain rfl := hsettle.eq_const
      rw [Outcome.withDepth, ← hdepth _ _ hm.depth, ← hm.eq_of_identical]
  | outOfFuel =>
    obtain hlost | ⟨-, hsettle⟩ := hends
    · exact absurd rfl (hend hlost)
    · obtain rfl := hsettle.eq_const
      rfl

/-- A run beside itself with no less fuel, from `start` open calls on. Nothing is asked of the
    second run if the first runs out. -/
def fueled (start : Nat) : Simulation :=
  identical (fun calls d d' => d' = d ∧ d = start + calls) False True

theorem fueled_monitors (engine : Engine) (start : Nat) :
    (fueled start).Monitors (.plain engine) (.plain engine) where
  around := id
  opening := fun h => Sim.nested (fun _ _ _ => Iff.rfl) _ fun _ => h

theorem fueled_visit (engine : Engine) (start : Nat) {fuel fuel' : Nat} (hle : fuel ≤ fuel')
    (scope : Nat) (e : Expr) :
    (fueled start).Sim 0 .same Value.Linked (fun _ => Eval.visit engine fuel scope e)
      (fun _ => Eval.visit engine fuel' scope e) := by
  rw [← Eval.visitUnder_plain engine fuel 0, ← Eval.visitUnder_plain engine fuel' 0]
  exact (fueled_monitors engine start).visitUnder rfl rfl (.inr ⟨trivial, hle⟩) rfl e
    (Links.same_knows e)

end Simulation

namespace Eval

variable {engine : Engine} {scope : Nat} {e : Expr} {m : Machine}

/-- More fuel leaves an evaluation that ends as it is. -/
theorem visit_of_le {fuel fuel' : Nat} (hle : fuel ≤ fuel')
    (hend : visit engine fuel scope e m ≠ .outOfFuel) :
    visit engine fuel' scope e m = visit engine fuel scope e m := by
  have hmore {rest : Nat} (hrest : fuel ≤ rest) :
      visit engine rest scope e m = (visit engine fuel scope e m).withDepth m.depth := by
    have hsim := Simulation.fueled_visit engine m.depth hrest scope e m m
      (Simulation.machines_identical ⟨rfl, rfl⟩) le_rfl
    refine hsim.eq_of_identical (fun _ => hend) ?_
    rintro n n' ⟨rfl, hn⟩
    exact hn
  rw [hmore hle, ← hmore le_rfl]

/-- Every evaluation comes to something, if only to want more fuel for ever. -/
theorem visit_settles (engine : Engine) (scope : Nat) (e : Expr) (m : Machine) :
    ∃ o, Settles (fun fuel => visit engine fuel scope e m) o := by
  by_cases hend : ∃ fuel, visit engine fuel scope e m ≠ .outOfFuel
  · obtain ⟨fuel, hfuel⟩ := hend
    refine ⟨visit engine fuel scope e m, Filter.eventually_atTop.mpr ⟨fuel, ?_⟩⟩
    exact fun fuel' hle => visit_of_le hle hfuel
  · push Not at hend
    exact ⟨.outOfFuel, Filter.Eventually.of_forall hend⟩

end Eval

end ExprLang
