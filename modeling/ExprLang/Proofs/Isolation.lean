import ExprLang.Proofs.Reachability
import ExprLang.Proofs.Simulation.Region

/-!
# Isolation

A program that runs in a scope leaves alone every cell that cannot be reached from the scope, and
nothing of what it does depends on such cells (`Engine.evaluate_isolated`). Runs on two stores that
agree on what can be reached may add their cells at different places; their endings are compared up
to that.
-/

namespace ExprLang

/-! ## Cells that are kept, and cells that are linked -/

/-- Of the cells of one kind, those that are not shared are as they were. -/
theorem KeptCells.map_eq {α β : Type} {R : Nat → Prop} {size' : Nat} {xs ys : Array α} {f : α → β}
    (h : KeptCells (sharedOrNew R xs.size size') xs ys) {a : Nat} (ha : xs[a]?.map f ≠ none)
    (hR : ¬ R a) : ys[a]?.map f = xs[a]?.map f := by
  have hlt : a < xs.size := by simpa using ha
  have hout : ∀ b, ¬ sharedOrNew R xs.size size' a b := by
    rintro b (⟨-, hin, -⟩ | ⟨i, rfl, -⟩)
    · exact hR hin
    · omega
  rw [h.same a hlt hout]

theorem Cells.map_rel {α β γ δ : Type} {r : Nat → Nat → Prop} {Q : α → β → Prop}
    {P : γ → δ → Prop} {xs : Array α} {ys : Array β} (h : Cells r Q xs ys) {a b : Nat} (hab : r a b)
    {f : α → γ} {g : β → δ} (hfg : ∀ x y, Q x y → P (f x) (g y)) :
    Option.Rel P (xs[a]?.map f) (ys[b]?.map g) := by
  rcases rel_cases (h.get hab) with ⟨hx, hy⟩ | ⟨x, y, hx, hy, hxy⟩
  · rw [hx, hy]
    exact .none
  · rw [hx, hy]
    exact .some (hfg x y hxy)

namespace Store

variable {L : Links} {ok : Function → Prop} {R : Cell → Prop} {s t s' : Store} {c d : Cell}

/-- A cell of the first store that is not in the region is as it was. -/
theorem Kept.cell?_eq (h : s.Kept (.across R s t) s') (hc : s.cell? c ≠ none) (hR : ¬ R c) :
    s'.cell? c = s.cell? c := by
  cases c with
  | frame id => exact KeptCells.map_eq (R := fun id => R (.frame id)) h.frames hc hR
  | array id => exact KeptCells.map_eq (R := fun id => R (.array id)) h.arrays hc hR
  | object id => exact KeptCells.map_eq (R := fun id => R (.object id)) h.objects hc hR
  | function id => exact KeptCells.map_eq (R := fun id => R (.function id)) h.functions hc hR

/-- Cells that stand for each other hold linked contents. -/
theorem Linked.cell? (h : s.Linked L ok t) (hcd : L.Pairs c d) :
    Option.Rel (Content.Linked L) (s.cell? c) (t.cell? d) := by
  cases hcd with
  | frame hab => exact h.frames.map_rel hab fun _ _ => .frame
  | array hab => exact h.arrays.map_rel hab fun _ _ => .array
  | object hab => exact h.objects.map_rel hab fun _ _ => .object
  | function hab => exact h.functions.map_rel hab fun _ _ hfg => .function hfg.1

end Store

/-! ## Endings -/

/-- Machines that have printed and logged the same and whose linked cells hold linked contents. -/
structure Machine.Alike (L : Links) (m n : Machine) : Prop where
  out : m.out = n.out
  log : m.log = n.log
  cells : ∀ {c d : Cell}, L.Pairs c d →
    Option.Rel (Content.Linked L) (m.store.cell? c) (n.store.cell? d)

/-- Endings that are equal but for linked cells. -/
inductive Outcome.Alike (L : Links) : Outcome Value → Outcome Value → Prop
  | done {v w : Value} {m n : Machine} (hv : v.Linked L w) (hm : m.Alike L n) :
    Alike L (.done v m) (.done w n)
  | failed (f : Fault) {m n : Machine} (hm : m.Alike L n) : Alike L (.failed f m) (.failed f n)
  | outOfFuel : Alike L .outOfFuel .outOfFuel

namespace Simulation

variable {L : Links} {hL : L.Ordered} {ok : Function → Prop}
  {hclosure : ∀ arity body scope, ok (.closure arity body scope)} {start : Store} {depth : Nat}
  {exhausts : Prop} {k : Nat}

theorem Machines.alike {m n : Machine}
    (h : (region hL ok hclosure start depth exhausts).Machines k m n) : m.Alike L n :=
  ⟨h.out, h.log, h.store.1.cell?⟩

/-- Runs on linked stores end alike, and the first leaves alone what is not linked. -/
theorem EndAlike.of_region {L' : Links} {o o' : Outcome Value}
    (h : (region hL ok hclosure start depth exhausts).EndAlike k L' Value.Linked (fun _ => o)
      (fun _ => o')) :
    o.Alike L o' ∧ ∀ m ∈ o.machine?, start.Kept L m.store := by
  have hends := h.ends
  cases o with
  | done v m =>
    obtain ⟨w, n, hsettle, hm, -, hv⟩ := hends
    obtain rfl := hsettle.eq_const
    refine ⟨.done hv hm.alike, ?_⟩
    rintro _ ⟨rfl⟩
    exact hm.store.2
  | failed f m =>
    obtain hlost | ⟨n, hsettle, hm, -⟩ := hends
    · exact hlost.elim
    · obtain rfl := hsettle.eq_const
      refine ⟨.failed f hm.alike, ?_⟩
      rintro _ ⟨rfl⟩
      exact hm.store.2
  | outOfFuel =>
    obtain hlost | ⟨-, hsettle⟩ := hends
    · exact hlost.elim
    · obtain rfl := hsettle.eq_const
      exact ⟨.outOfFuel, nofun⟩

end Simulation

/-! ## Programs -/

namespace Simulation

/-- Programs on linked stores, in linked scopes. -/
theorem region_evaluate {L : Links} (hL : L.Ordered) (ok : Function → Prop)
    (hclosure : ∀ arity body scope, ok (.closure arity body scope)) (start : Store)
    (engine : Engine) (fuel : Nat) (program : Program) {a b : Nat} (hab : L.frames a b) :
    (region hL ok hclosure start 0 True).Sim 0 L Value.Linked
      (fun _ => engine.evaluate fuel program a) (fun _ => engine.evaluate fuel program b) := by
  refine Sim.evaluate hab rfl fun root => ?_
  have hvisit : (region hL ok hclosure start 0 True).Sim 0 L Value.Linked
      (fun _ => Eval.visitUnder (.plain engine) engine fuel 0 a root)
      (fun _ => Eval.visitUnder (.plain engine) engine fuel 0 b root) :=
    (inStep_monitors engine).visitUnder rfl rfl (.inl ⟨trivial, rfl⟩) hab root
      fun x _ => hL.nodes x.1 x.2
  simpa only [Eval.visitUnder_plain] using hvisit

end Simulation

namespace Engine

/-- A program on two stores that agree on a closed region, in a scope of the region. -/
theorem evaluate_across (engine : Engine) (fuel : Nat) (program : Program) {scope : Nat}
    {R : Cell → Prop} {s t : Store} (hclosed : s.Closed R) (hscope : R (.frame scope))
    (hsame : ∀ c, R c → t.cell? c = s.cell? c)
    (hself : ∀ c, R c → (Links.across R s t).Pairs c c) (nodes : Array Literal) :
    let o := engine.evaluate fuel program scope { store := s, nodes }
    o.Alike (.across R s t) (engine.evaluate fuel program scope { store := t, nodes }) ∧
      ∀ m ∈ o.machine?, s.Kept (.across R s t) m.store := by
  have hstores : s.Linked (.across R s t) (fun _ => True) t :=
    Store.linked_across hclosed hsame hself fun _ _ _ _ => trivial
  cases hself _ hscope with
  | frame hab =>
    have hsim := Simulation.region_evaluate (Links.across_ordered R s t) (fun _ => True)
      (fun _ _ _ => trivial) s engine fuel program hab
    exact (hsim _ _ (Simulation.region_start hstores nodes) le_rfl).of_region

/-- A program that runs in a scope leaves alone all cells that cannot be reached from the scope, and
    on every store that holds the same in the cells that can be reached, it ends alike: the same
    value or fault, the same output, and the same contents of those cells, up to the places of the
    cells that are added. -/
theorem evaluate_isolated (engine : Engine) (fuel : Nat) (program : Program) (scope : Nat)
    (s : Store) (nodes : Array Literal) :
    (∀ m ∈ (engine.evaluate fuel program scope { store := s, nodes }).machine?,
      ∀ c, s.cell? c ≠ none → ¬ s.Reaches (.frame scope) c → m.store.cell? c = s.cell? c) ∧
    ∀ t, (∀ c, s.Reaches (.frame scope) c → s.cell? c ≠ none ∧ t.cell? c = s.cell? c) →
      (engine.evaluate fuel program scope { store := s, nodes }).Alike
        (.across (s.Reaches (.frame scope)) s t)
        (engine.evaluate fuel program scope { store := t, nodes }) := by
  have hclosed := s.closed_reaches (.frame scope)
  constructor
  · -- the store beside itself
    have hself : ∀ c, s.Reaches (.frame scope) c →
        (Links.across (s.Reaches (.frame scope)) s s).Pairs c c := fun _ => Store.pairs_across_self
    obtain ⟨-, hkept⟩ :=
      evaluate_across engine fuel program hclosed .start (fun _ _ => rfl) hself nodes
    intro m hm c hc hunreached
    exact (hkept m hm).cell?_eq hc hunreached
  · intro t hshared
    have hself : ∀ c, s.Reaches (.frame scope) c →
        (Links.across (s.Reaches (.frame scope)) s t).Pairs c c := by
      intro c hR
      obtain ⟨hc, hsame⟩ := hshared c hR
      exact Store.pairs_across hR hc (hsame ▸ hc)
    have hsame : ∀ c, s.Reaches (.frame scope) c → t.cell? c = s.cell? c := fun c hR =>
      (hshared c hR).2
    exact (evaluate_across engine fuel program hclosed .start hsame hself nodes).1

/-- A scope with an array that holds itself and a closure that puts its arguments there, beside the
    scopes and arrays of others. -/
def roomOf (frames : List Frame) (arrays : List (Array Value)) : Store where
  frames := (⟨none, 0, .ofList [("XS", .array 0), ("PUT", .function 0)]⟩ :: frames).toArray
  arrays := (#[.array 0] :: arrays).toArray
  functions := #[.closure (.exactly 0)
    (.assign .plain (.index (.ref (.name "XS" .start)) (.literal 0 .int "0" .start) .start)
      (.ref (.name "ARG" .start)) .start) 0]

theorem mem_of_reaches_roomOf {frames : List Frame} {arrays : List (Array Value)} {c : Cell}
    (h : (roomOf frames arrays).Reaches (.frame 0) c) :
    c ∈ [Cell.frame 0, .array 0, .function 0] := by
  refine h.mem (R := (· ∈ [Cell.frame 0, .array 0, .function 0])) ?_ List.mem_cons_self
  intro c content hc hcontent d hd
  simp only [List.mem_cons, List.not_mem_nil, or_false] at hc
  rcases hc with rfl | rfl | rfl <;> cases hcontent
  · exact hd
  · obtain rfl := List.mem_singleton.mp hd
    decide
  · obtain rfl := List.mem_singleton.mp hd
    decide

def putCall : Program := ⟨some (.call (.name "PUT" .start) [] "PUT()" .start)⟩

/-- The scope beside that of another. -/
def sharedRoom : Store := roomOf [⟨none, 1, .ofList [("YS", .array 1)]⟩] [#[.int 7]]

/-- What the closure puts into its array stands at different places with and without the other
    scope, whose array stays. -/
theorem evaluate_isolated_roomOf :
    (∀ m ∈ (Engine.evaluate {} 6 putCall 0 { store := sharedRoom }).machine?,
      m.store.cell? (.array 1) = some (.array #[.int 7])) ∧
    (∀ c, sharedRoom.Reaches (.frame 0) c →
      sharedRoom.cell? c ≠ none ∧ (roomOf [] []).cell? c = sharedRoom.cell? c) ∧
    (Engine.evaluate {} 6 putCall 0 { store := sharedRoom }).Alike
      (.across (sharedRoom.Reaches (.frame 0)) sharedRoom (roomOf [] []))
      (Engine.evaluate {} 6 putCall 0 { store := roomOf [] [] }) := by
  have hstranger : ¬ sharedRoom.Reaches (.frame 0) (.array 1) := fun h =>
    absurd (mem_of_reaches_roomOf h) (by decide)
  have hshared : ∀ c, sharedRoom.Reaches (.frame 0) c →
      sharedRoom.cell? c ≠ none ∧ (roomOf [] []).cell? c = sharedRoom.cell? c := by
    intro c hc
    have hmem := mem_of_reaches_roomOf hc
    simp only [List.mem_cons, List.not_mem_nil, or_false] at hmem
    rcases hmem with rfl | rfl | rfl <;> exact ⟨nofun, rfl⟩
  obtain ⟨hkept, halike⟩ := evaluate_isolated {} 6 putCall 0 sharedRoom #[]
  exact ⟨fun m hm => hkept m hm (.array 1) nofun hstranger, hshared, halike _ hshared⟩

end Engine

end ExprLang
