import ExprLang.Proofs.Links
import Mathlib.Order.Filter.AtTopBot.Basic

/-!
# Two runs side by side

A `Simulation` relates the machines of two runs: their stores hold linked data, they have printed
and logged the same, they have the same literal nodes, and their numbers of open calls are related.
Two computations simulate each other if, from related machines, they end in the same way on related
machines.

The links may grow while the runs go on. A statement is therefore made from some links on: it holds
for all machines whose links include them, and it ends with machines whose links do so too.

A computation may depend on the fuel it is given. It is therefore told as a sequence, with more and
more fuel, and what counts is the ending that the sequence settles on. A computation that uses no
fuel, or has a fixed amount of it, is a constant sequence.
-/

namespace ExprLang

namespace Literal

/-- The value of a literal node if some nodes are remembered already. -/
def recalled (l : Literal) (node : Nat) (known : List (Nat × Value)) : Except Cause Value :=
  match known.lookup node with
  | some v => .ok v
  | none => l.value

/-- What is remembered after a literal node has been met. -/
def remember (l : Literal) (node : Nat) (known : List (Nat × Value)) : List (Nat × Value) :=
  match known.lookup node with
  | some _ => known
  | none =>
    match l.value with
    | .ok v => (node, v) :: known
    | .error _ => known

end Literal

/-- A relation of two stores, and the cells that stand for each other in them. -/
structure StoreRel where
  rel : Store → Store → Prop
  links : Store → Store → Links

namespace StoreRel

variable (R : StoreRel)

/-- Related stores give linked data wherever the steps of evaluation read them. Programs can get
    hold of some functions only. -/
structure Reads (admits : Function → Prop) : Prop where
  elements : ∀ {s t : Store} {a b : Nat}, R.rel s t → (R.links s t).arrays a b →
    Value.AllLinked (R.links s t) (s.elements a).toList (t.elements b).toList
  members : ∀ {s t : Store} {a b : Nat}, R.rel s t → (R.links s t).objects a b →
    (s.members a).Linked (R.links s t) (t.members b)
  bindings : ∀ {s t : Store} {a b : Nat}, R.rel s t → (R.links s t).frames a b →
    (s.bindings a).Linked (R.links s t) (t.bindings b)
  owner : ∀ {s t : Store} {a b : Nat}, R.rel s t → (R.links s t).frames a b → ∀ key,
    Option.Rel (R.links s t).frames (s.owner? key a) (t.owner? key b)
  root : ∀ {s t : Store} {a b : Nat}, R.rel s t → (R.links s t).frames a b →
    (R.links s t).frames (s.root a) (t.root b)
  root_eq : ∀ {s t : Store} {a b : Nat}, R.rel s t → (R.links s t).frames a b →
    (s.root a = a ↔ t.root b = b)
  function : ∀ {s t : Store} {a b : Nat}, R.rel s t → (R.links s t).functions a b →
    Option.Rel (fun f g => f.Linked (R.links s t) g ∧ admits f) s.functions[a]? t.functions[b]?
  text : ∀ {s t : Store} {v w : Value}, R.rel s t → v.Linked (R.links s t) w → s.text v = t.text w
  equal : ∀ {s t : Store} {v w v' w' : Value}, R.rel s t → v.Linked (R.links s t) w →
    v'.Linked (R.links s t) w' → s.equal? v v' = t.equal? w w'

/-- A change of related stores that leaves them related, and linked what is linked. -/
structure Keeps (s t s' t' : Store) : Prop where
  rel : R.rel s' t'
  links : R.links s t ≤ R.links s' t'

/-- Related stores stay related wherever the steps of evaluation write them. -/
structure Writes : Prop where
  newArray : ∀ {s t : Store} {xs ys : Array Value}, R.rel s t →
    Value.AllLinked (R.links s t) xs.toList ys.toList →
      R.Keeps s t (s.newArray xs).2 (t.newArray ys).2 ∧
        (s.newArray xs).1.Linked (R.links (s.newArray xs).2 (t.newArray ys).2) (t.newArray ys).1
  newObject : ∀ {s t : Store} {xs ys : Members}, R.rel s t → xs.Linked (R.links s t) ys →
    xs.WellFormed →
      R.Keeps s t (s.newObject xs).2 (t.newObject ys).2 ∧
        (s.newObject xs).1.Linked (R.links (s.newObject xs).2 (t.newObject ys).2) (t.newObject ys).1
  newClosure : ∀ {s t : Store} {a b : Nat}, R.rel s t → (R.links s t).frames a b →
    ∀ arity body, (R.links s t).Knows body →
      let p := s.newFunction (.closure arity body a)
      let q := t.newFunction (.closure arity body b)
      R.Keeps s t p.2 q.2 ∧ p.1.Linked (R.links p.2 q.2) q.1
  newFrame : ∀ {s t : Store} {a b : Nat}, R.rel s t → (R.links s t).frames a b →
    R.Keeps s t (s.newFrame a).2 (t.newFrame b).2 ∧
      (R.links (s.newFrame a).2 (t.newFrame b).2).frames (s.newFrame a).1 (t.newFrame b).1
  bind : ∀ {s t : Store} {a b : Nat} {v w : Value}, R.rel s t → (R.links s t).frames a b →
    v.Linked (R.links s t) w → ∀ key, R.Keeps s t (s.bind a key v) (t.bind b key w)
  setElement : ∀ {s t : Store} {a b : Nat} {v w : Value}, R.rel s t →
    (R.links s t).arrays a b → v.Linked (R.links s t) w →
      ∀ index, R.Keeps s t (s.setElement a index v) (t.setElement b index w)
  setMember : ∀ {s t : Store} {a b : Nat} {v w : Value}, R.rel s t →
    (R.links s t).objects a b → v.Linked (R.links s t) w →
      ∀ key, R.Keeps s t (s.setMember a key v) (t.setMember b key w)

variable {R} {s t s₁ t₁ s₂ t₂ : Store}

theorem Keeps.refl (h : R.rel s t) : R.Keeps s t s t := ⟨h, le_refl _⟩

theorem Keeps.trans (h : R.Keeps s t s₁ t₁) (h' : R.Keeps s₁ t₁ s₂ t₂) : R.Keeps s t s₂ t₂ :=
  ⟨h'.rel, h.links.trans h'.links⟩

end StoreRel

/-- A relation of two runs. -/
structure Simulation where
  /-- The stores, once such literal nodes have been made. -/
  stores : Array Literal → StoreRel
  /-- The functions that programs can get hold of. -/
  admits : Function → Prop
  reads : ∀ table, (stores table).Reads admits
  writes : ∀ table, (stores table).Writes
  /-- The values that the runs remember, once such literal nodes have been made. -/
  literals : Array Literal → List (Nat × Value) → List (Nat × Value) → Prop
  literals_nil : ∀ table, literals table [] []
  recalled : ∀ {table ks ls s t} {l : Literal} {node : Nat}, literals table ks ls →
    ((stores table).links s t).nodes l node → l.recalled node ks = l.recalled node ls
  recalled_linked : ∀ {table ks ls s t} {l : Literal} {node : Nat} {v : Value},
    literals table ks ls → (stores table).rel s t → l.recalled node ks = .ok v →
      v.Linked ((stores table).links s t) v
  remember : ∀ {table ks ls s t} {l : Literal} {node : Nat}, literals table ks ls →
    ((stores table).links s t).nodes l node →
      literals table (l.remember node ks) (l.remember node ls)
  /-- New nodes are known, and leave related what is related. -/
  numbered : ∀ {table table' s t}, Literal.Extends table table' → (stores table).rel s t →
    (stores table').rel s t ∧ (stores table).links s t ≤ (stores table').links s t
  numbered_known : ∀ {table s t} {l : Literal} {node : Nat}, (stores table).rel s t →
    table[node]? = some l → ((stores table).links s t).nodes l node
  literals_mono : ∀ {table table' ks ls s t s' t'},
    (stores table).links s t ≤ (stores table').links s' t' →
      literals table ks ls → literals table' ks ls
  /-- The numbers of open calls, so many of them opened since the start. -/
  depth : Nat → Nat → Nat → Prop
  /-- Endings of the first run, with a fault or for want of fuel, after which nothing is asked of
      the second. -/
  lost : Option Fault → Prop
  /-- Whether the runs may end for want of fuel. -/
  exhausts : Prop
  lost_located : ∀ {f : Fault}, lost (some f) → ∀ pos, lost (some (f.located pos))
  lost_leaving : ∀ {f : Fault}, lost (some f) → ∀ site, lost (some (f.leaving site))

namespace Outcome

variable {α β : Type}

/-- The machine at the end. -/
def machine? : Outcome α → Option Machine
  | .done _ m => some m
  | .failed _ m => some m
  | .outOfFuel => none

/-- Goes on with the value at the end. -/
def andThen (o : Outcome α) (f : α → EvalM β) : Outcome β :=
  match o with
  | .done a m => f a m
  | .failed f m => .failed f m
  | .outOfFuel => .outOfFuel

/-- Changes the fault at the end. -/
def mapFault (change : Fault → Fault) : Outcome α → Outcome α
  | .failed f m => .failed (change f) m
  | o => o

/-- Changes the machine at the end. -/
def mapMachine (change : Machine → Machine) : Outcome α → Outcome α
  | .done a m => .done a (change m)
  | .failed f m => .failed f (change m)
  | .outOfFuel => .outOfFuel

end Outcome

namespace EvalM

variable {α : Type}

theorem mayEnter_none (depth : Nat) : mayEnter none depth = true := rfl

theorem mayEnter_some (limit depth : Nat) : mayEnter (some limit) depth = decide (depth < limit) :=
  rfl

theorem nested_of_mayEnter {limit? : Option Nat} {x : EvalM α} {m : Machine}
    (h : mayEnter limit? m.depth = true) : nested limit? x m = nested none x m := by
  unfold nested
  rw [if_pos h, if_pos (mayEnter_none _)]

theorem nested_of_refused {limit? : Option Nat} {x : EvalM α} {m : Machine}
    (h : mayEnter limit? m.depth = false) :
    nested limit? x m = .failed (.of (.depthExceeded (limit?.getD 0))) m := by
  unfold nested
  rw [if_neg (by rw [h]; exact Bool.false_ne_true)]

end EvalM

/-- Endings that are the same from some fuel on. -/
def Settles {α : Type} (os : Nat → Outcome α) (o : Outcome α) : Prop :=
  ∀ᶠ i in Filter.atTop, os i = o

theorem settles_const {α : Type} (o : Outcome α) : Settles (fun _ => o) o :=
  Filter.Eventually.of_forall fun _ => rfl

theorem Settles.eq_const {α : Type} {o o' : Outcome α} (h : Settles (fun _ => o) o') : o = o' :=
  Filter.eventually_const.mp h

theorem Settles.congr {α : Type} {os os' : Nat → Outcome α} {o : Outcome α} (h : Settles os o)
    (heq : ∀ᶠ i in Filter.atTop, os' i = os i) : Settles os' o := by
  filter_upwards [h, heq] with i hi hi'
  rw [hi', hi]

namespace Simulation

variable (S : Simulation) (k : Nat) (L : Links) {α β γ δ : Type}

/-- Amounts of fuel for the two runs: equal ones, or no less for the second if nothing is asked of
    it once the first has run out. -/
def Enough (fuel fuel' : Nat) : Prop :=
  S.exhausts ∧ fuel = fuel' ∨ S.lost none ∧ fuel ≤ fuel'

/-- The cells of two machines that stand for each other, and the nodes that are known in them. -/
def links (m n : Machine) : Links := (S.stores m.nodes).links m.store n.store

/-- Related machines, with `k` calls opened since the start. -/
structure Machines (m n : Machine) : Prop where
  store : (S.stores m.nodes).rel m.store n.store
  out : m.out = n.out
  log : m.log = n.log
  nodes : m.nodes = n.nodes
  literals : S.literals m.nodes m.literals n.literals
  depth : S.depth k m.depth n.depth

/-- An ending of the first run and those of the second that are related to it, with links that
    include `L`. -/
def Ends (A : Links → α → β → Prop) : Outcome α → (Nat → Outcome β) → Prop
  | .done a m, os => ∃ b n, Settles os (.done b n) ∧ S.Machines k m n ∧
      L ≤ S.links m n ∧ A (S.links m n) a b
  | .failed f m, os => S.lost (some f) ∨ ∃ n, Settles os (.failed f n) ∧ S.Machines k m n ∧
      L ≤ S.links m n
  | .outOfFuel, os => S.lost none ∨ S.exhausts ∧ Settles os .outOfFuel

/-- Endings that settle on related ones. -/
def EndAlike (A : Links → α → β → Prop) (os : Nat → Outcome α) (os' : Nat → Outcome β) : Prop :=
  ∃ o, Settles os o ∧ S.Ends k L A o os'

/-- Computations that end alike on all related machines whose links include `L`. -/
def Sim (A : Links → α → β → Prop) (x : Nat → EvalM α) (y : Nat → EvalM β) : Prop :=
  ∀ m n, S.Machines k m n → L ≤ S.links m n →
    S.EndAlike k L A (fun i => x i m) (fun i => y i n)

/-- Results that are equal whatever the links are. -/
def Same (_ : Links) (a b : α) : Prop := a = b

variable {S k L} {k' : Nat} {L' : Links} {A : Links → α → β → Prop} {B : Links → γ → δ → Prop}

theorem Enough.succ {fuel fuel' : Nat} (h : S.Enough (fuel + 1) fuel') :
    ∃ rest, fuel' = rest + 1 ∧ S.Enough fuel rest := by
  rcases h with ⟨hexhausts, rfl⟩ | ⟨hlost, hle⟩
  · exact ⟨fuel, rfl, .inl ⟨hexhausts, rfl⟩⟩
  · exact ⟨fuel' - 1, by omega, .inr ⟨hlost, by omega⟩⟩

theorem Machines.withStore {m n : Machine} {s t : Store} (h : S.Machines k m n)
    (hs : (S.stores m.nodes).rel s t) :
    S.Machines k { m with store := s } { n with store := t } :=
  ⟨hs, h.out, h.log, h.nodes, h.literals, h.depth⟩

theorem Machines.withLiterals {m n : Machine} {ks ls : List (Nat × Value)}
    (h : S.Machines k m n) (hl : S.literals m.nodes ks ls) :
    S.Machines k { m with literals := ks } { n with literals := ls } :=
  ⟨h.store, h.out, h.log, h.nodes, hl, h.depth⟩

theorem Ends.weaken {o : Outcome α} {os : Nat → Outcome β} (h : S.Ends k L' A o os)
    (hL : L ≤ L') : S.Ends k L A o os := by
  cases o with
  | done a m =>
    obtain ⟨b, n, ho, hm, hlinks, hab⟩ := h
    exact ⟨b, n, ho, hm, hL.trans hlinks, hab⟩
  | failed f m =>
    rcases h with hlost | ⟨n, ho, hm, hlinks⟩
    · exact .inl hlost
    · exact .inr ⟨n, ho, hm, hL.trans hlinks⟩
  | outOfFuel => exact h

/-- Of the second run only what it settles on counts. -/
theorem Ends.of_settles {o : Outcome α} {os os' : Nat → Outcome β} (h : S.Ends k L A o os)
    (hos : ∀ {p}, Settles os p → Settles os' p) : S.Ends k L A o os' := by
  cases o with
  | done a m =>
    obtain ⟨b, n, ho, hend⟩ := h
    exact ⟨b, n, hos ho, hend⟩
  | failed f m =>
    rcases h with hlost | ⟨n, ho, hend⟩
    · exact .inl hlost
    · exact .inr ⟨n, hos ho, hend⟩
  | outOfFuel =>
    rcases h with hlost | ⟨hexhausts, ho⟩
    · exact .inl hlost
    · exact .inr ⟨hexhausts, hos ho⟩

namespace EndAlike

variable {os : Nat → Outcome α} {os' : Nat → Outcome β}

/-- The ending of a run that does not depend on fuel. -/
theorem ends {o : Outcome α} (h : S.EndAlike k L A (fun _ => o) os') : S.Ends k L A o os' := by
  obtain ⟨o', ho, hend⟩ := h
  rwa [ho.eq_const]

theorem weaken (h : S.EndAlike k L' A os os') (hL : L ≤ L') : S.EndAlike k L A os os' := by
  obtain ⟨o, ho, hend⟩ := h
  exact ⟨o, ho, hend.weaken hL⟩

theorem done {a : α} {b : β} {m n : Machine} (hm : S.Machines k m n)
    (hL : L ≤ S.links m n) (hab : A (S.links m n) a b) :
    S.EndAlike k L A (fun _ => .done a m) (fun _ => .done b n) :=
  ⟨.done a m, settles_const _, b, n, settles_const _, hm, hL, hab⟩

theorem failed (f : Fault) {m n : Machine} (hm : S.Machines k m n)
    (hL : L ≤ S.links m n) :
    S.EndAlike k L A (fun _ => .failed f m) (fun _ => .failed f n) :=
  ⟨.failed f m, settles_const _, .inr ⟨n, settles_const _, hm, hL⟩⟩

theorem lost {f : Fault} (m : Machine) (hlost : S.lost (some f)) :
    S.EndAlike k L A (fun _ => .failed f m) os' :=
  ⟨.failed f m, settles_const _, .inl hlost⟩

/-- What is done with the endings of computations that end alike: it is enough that the same kinds
    of endings lead to endings alike. -/
theorem andThen (g : Nat → Outcome α → Outcome γ) (g' : Nat → Outcome β → Outcome δ)
    (h : S.EndAlike k L A os os')
    (hdone : ∀ a b m n, S.Machines k m n → L ≤ S.links m n →
      A (S.links m n) a b →
        S.EndAlike k' L B (fun i => g i (.done a m)) (fun i => g' i (.done b n)))
    (hfailed : ∀ f m n, S.Machines k m n → L ≤ S.links m n →
      S.EndAlike k' L B (fun i => g i (.failed f m)) (fun i => g' i (.failed f n)))
    (hlost : ∀ f m os'', S.lost (some f) → S.EndAlike k' L B (fun i => g i (.failed f m)) os'')
    (hout : ∀ i, g i .outOfFuel = .outOfFuel) (hout' : ∀ i, g' i .outOfFuel = .outOfFuel) :
    S.EndAlike k' L B (fun i => g i (os i)) (fun i => g' i (os' i)) := by
  obtain ⟨o, ho, hend⟩ := h
  -- both sequences may be replaced by what they settle on
  have through {p : Outcome β} (hp : Settles os' p)
      (hgo : S.EndAlike k' L B (fun i => g i o) (fun i => g' i p)) :
      S.EndAlike k' L B (fun i => g i (os i)) (fun i => g' i (os' i)) := by
    obtain ⟨q, hq, hqend⟩ := hgo
    refine ⟨q, hq.congr ?_, hqend.of_settles fun hp' => hp'.congr ?_⟩
    · filter_upwards [ho] with i hi
      rw [hi]
    · filter_upwards [hp] with i hi
      rw [hi]
  cases o with
  | done a m =>
    obtain ⟨b, n, hp, hm, hL, hab⟩ := hend
    exact through hp (hdone a b m n hm hL hab)
  | failed f m =>
    rcases hend with hf | ⟨n, hp, hm, hL⟩
    · obtain ⟨q, hq, hqend⟩ := hlost f m (fun i => g' i (os' i)) hf
      refine ⟨q, hq.congr ?_, hqend⟩
      filter_upwards [ho] with i hi
      rw [hi]
    · exact through hp (hfailed f m n hm hL)
  | outOfFuel =>
    have hend' : Settles (fun i => g i (os i)) .outOfFuel := by
      filter_upwards [ho] with i hi
      rw [hi, hout]
    rcases hend with hf | ⟨hexhausts, hp⟩
    · exact ⟨.outOfFuel, hend', .inl hf⟩
    · refine ⟨.outOfFuel, hend', .inr ⟨hexhausts, ?_⟩⟩
      filter_upwards [hp] with i hi
      rw [hi, hout']

end EndAlike

namespace Sim

variable {x : Nat → EvalM α} {y : Nat → EvalM β} {a : α} {b : β}

theorem pure (h : ∀ L', L ≤ L' → A L' a b) : S.Sim k L A (fun _ => pure a) (fun _ => pure b) :=
  fun _ _ hm hL => .done hm hL (h _ hL)

theorem bind {f : Nat → α → EvalM γ} {g : Nat → β → EvalM δ} (hx : S.Sim k L A x y)
    (hf : ∀ L', L ≤ L' → ∀ a b, A L' a b → S.Sim k L' B (fun i => f i a) (fun i => g i b)) :
    S.Sim k L B (fun i => x i >>= f i) (fun i => y i >>= g i) := by
  intro m n hm hL
  refine EndAlike.andThen (fun i o => o.andThen (f i)) (fun i o => o.andThen (g i))
    (hx m n hm hL) ?_ ?_ ?_ (fun _ => rfl) (fun _ => rfl)
  · intro a b m' n' hm' hL' hab
    exact (hf _ hL' a b hab m' n' hm' (le_refl _)).weaken hL'
  · intro fault m' n' hm' hL'
    exact .failed fault hm' hL'
  · intro fault m' _ hlost
    exact .lost m' hlost

/-- Only what the sequences come to counts. -/
theorem congr {x' : Nat → EvalM α} {y' : Nat → EvalM β} (h : S.Sim k L A x y)
    (hx : ∀ᶠ i in Filter.atTop, x' i = x i) (hy : ∀ᶠ i in Filter.atTop, y' i = y i) :
    S.Sim k L A x' y' := by
  intro m n hm hL
  obtain ⟨o, ho, hend⟩ := h m n hm hL
  refine ⟨o, ho.congr ?_, hend.of_settles fun ho' => ho'.congr ?_⟩
  · filter_upwards [hx] with i hi
    rw [hi]
  · filter_upwards [hy] with i hi
    rw [hi]

theorem exhausted (h : S.exhausts) :
    S.Sim k L A (fun _ => EvalM.exhausted) (fun _ => EvalM.exhausted) :=
  fun _ _ _ _ => ⟨.outOfFuel, settles_const _, .inr ⟨h, settles_const _⟩⟩

theorem lostFuel (h : S.lost none) : S.Sim k L A (fun _ => EvalM.exhausted) y :=
  fun _ _ _ _ => ⟨.outOfFuel, settles_const _, .inl h⟩

theorem fail (f : Fault) : S.Sim k L A (fun _ => EvalM.fail f) (fun _ => EvalM.fail f) :=
  fun _ _ hm hL => .failed f hm hL

theorem failWith (cause : Cause) :
    S.Sim k L A (fun _ => EvalM.failWith cause) (fun _ => EvalM.failWith cause) :=
  fail (.of cause)

/-- A change of faults that does not bring back what was lost. -/
theorem mapFault {change : Fault → Fault}
    (hlost : ∀ {f}, S.lost (some f) → S.lost (some (change f))) (h : S.Sim k L A x y) :
    S.Sim k L A (fun i => EvalM.mapFault change (x i)) (fun i => EvalM.mapFault change (y i)) := by
  intro m n hm hL
  refine EndAlike.andThen (fun _ o => o.mapFault change) (fun _ o => o.mapFault change)
    (h m n hm hL) ?_ ?_ ?_ (fun _ => rfl) (fun _ => rfl)
  · intro a b m' n' hm' hL' hab
    exact .done hm' hL' hab
  · intro f m' n' hm' hL'
    exact .failed (change f) hm' hL'
  · intro f m' _ hf
    exact .lost m' (hlost hf)

theorem locating (pos : Position) (h : S.Sim k L A x y) :
    S.Sim k L A (fun i => EvalM.locating pos (x i)) (fun i => EvalM.locating pos (y i)) :=
  mapFault (fun hf => S.lost_located hf pos) h

theorem inCall (site : CallSite) (h : S.Sim k L A x y) :
    S.Sim k L A (fun i => EvalM.inCall site (x i)) (fun i => EvalM.inCall site (y i)) :=
  mapFault (fun hf => S.lost_leaving hf site) h

/-- Reading the stores: what follows may use whatever related stores have in common. -/
theorem withStore {f : Nat → Store → EvalM α} {g : Nat → Store → EvalM β}
    (h : ∀ table s t, (S.stores table).rel s t → L ≤ (S.stores table).links s t →
      S.Sim k ((S.stores table).links s t) A (fun i => f i s) (fun i => g i t)) :
    S.Sim k L A (fun i => EvalM.store >>= f i) (fun i => EvalM.store >>= g i) :=
  fun m n hm hL => (h _ _ _ hm.store hL m n hm (le_refl _)).weaken hL

theorem update {f : Store → α × Store} {g : Store → β × Store}
    (h : ∀ table s t, (S.stores table).rel s t → L ≤ (S.stores table).links s t →
      (S.stores table).Keeps s t (f s).2 (g t).2 ∧
        A ((S.stores table).links (f s).2 (g t).2) (f s).1 (g t).1) :
    S.Sim k L A (fun _ => EvalM.update f) (fun _ => EvalM.update g) := by
  intro m n hm hL
  obtain ⟨hkeep, hab⟩ := h _ _ _ hm.store hL
  exact .done (hm.withStore hkeep.rel) (hL.trans hkeep.links) hab

theorem print (text : Text) :
    S.Sim k L Same (fun _ => EvalM.print text) (fun _ => EvalM.print text) :=
  fun _ _ hm hL =>
    .done ⟨hm.store, congrArg (· ++ text) hm.out, hm.log, hm.nodes, hm.literals, hm.depth⟩ hL rfl

theorem logAll (records : List LogRecord) :
    S.Sim k L Same (fun _ => EvalM.logAll records) (fun _ => EvalM.logAll records) :=
  fun _ _ hm hL =>
    .done ⟨hm.store, hm.out, congrArg (· ++ records.toArray) hm.log, hm.nodes, hm.literals,
      hm.depth⟩ hL rfl

/-- Programs whose literals become new nodes. -/
theorem number (program : Program) :
    S.Sim k L (fun L p q => p = q ∧ ∀ root ∈ p.root, L.Knows root)
      (fun _ => EvalM.number program) (fun _ => EvalM.number program) := by
  intro m n hm hL
  obtain ⟨hextends, hstands⟩ := program.numbered_extends m.nodes
  obtain ⟨hrel, hlinks⟩ := S.numbered hextends hm.store
  have hsame : program.numbered m.nodes = program.numbered n.nodes := by rw [hm.nodes]
  have hm' : S.Machines k { m with nodes := (program.numbered m.nodes).2 }
      { n with nodes := (program.numbered n.nodes).2 } :=
    ⟨hrel, hm.out, hm.log, congrArg Prod.snd hsame, S.literals_mono hlinks hm.literals,
      hm.depth⟩
  refine .done hm' (hL.trans hlinks) ⟨congrArg Prod.fst hsame, fun root hroot => ?_⟩
  exact fun x hx => S.numbered_known hrel (hstands root hroot x hx)

/-- What is remembered beside a computation stays right, whatever nodes are made in it. -/
theorem withOwnLiterals (h : ∀ {L'}, L ≤ L' → S.Sim k L' A x y) :
    S.Sim k L A (fun i => EvalM.withOwnLiterals (x i)) (fun i => EvalM.withOwnLiterals (y i)) := by
  intro m n hm hL
  have hstart := hm.withLiterals (S.literals_nil _)
  have hend : S.EndAlike k (S.links m n) A (fun i => EvalM.withOwnLiterals (x i) m)
      (fun i => EvalM.withOwnLiterals (y i) n) := by
    refine EndAlike.andThen (fun _ o => o.mapMachine fun m' => { m' with literals := m.literals })
      (fun _ o => o.mapMachine fun n' => { n' with literals := n.literals })
      (h hL _ _ hstart le_rfl) ?_ ?_ ?_ (fun _ => rfl) (fun _ => rfl)
    · intro a b m' n' hm' hL' hab
      exact .done (hm'.withLiterals (S.literals_mono hL' hm.literals)) hL' hab
    · intro f m' n' hm' hL'
      exact .failed f (hm'.withLiterals (S.literals_mono hL' hm.literals)) hL'
    · intro f m' _ hf
      exact .lost _ hf
  exact hend.weaken hL

end Sim

/-- Calls that are opened in both runs. -/
theorem EndAlike.nested {x : Nat → EvalM α} {y : Nat → EvalM β} {m n : Machine}
    (h : S.Sim (k + 1) L A x y) (hm : S.Machines k m n) (hL : L ≤ S.links m n)
    (hopen : S.depth (k + 1) (m.depth + 1) (n.depth + 1))
    (hclose : ∀ {d d' : Nat}, S.depth (k + 1) d d' → S.depth k (d - 1) (d' - 1)) :
    S.EndAlike k L A (fun i => EvalM.nested none (x i) m) (fun i => EvalM.nested none (y i) n) := by
  have hstart :
      S.Machines (k + 1) { m with depth := m.depth + 1 } { n with depth := n.depth + 1 } :=
    ⟨hm.store, hm.out, hm.log, hm.nodes, hm.literals, hopen⟩
  have hback {m' n' : Machine} (hm' : S.Machines (k + 1) m' n') :
      S.Machines k { m' with depth := m'.depth - 1 } { n' with depth := n'.depth - 1 } :=
    ⟨hm'.store, hm'.out, hm'.log, hm'.nodes, hm'.literals, hclose hm'.depth⟩
  refine EndAlike.andThen (fun _ o => o.mapMachine fun m' => { m' with depth := m'.depth - 1 })
    (fun _ o => o.mapMachine fun n' => { n' with depth := n'.depth - 1 })
    (h _ _ hstart hL) ?_ ?_ ?_ (fun _ => rfl) (fun _ => rfl)
  · intro a b m' n' hm' hL' hab
    exact .done (hback hm') hL' hab
  · intro f m' n' hm' hL'
    exact .failed f (hback hm') hL'
  · intro f m' _ hf
    exact .lost _ hf

/-- Runs that have opened equally many calls open and refuse them at the same time. -/
theorem Sim.nested {start : Nat} (hdepth : ∀ k d d', S.depth k d d' ↔ d' = d ∧ d = start + k)
    (limit? : Option Nat) {x : Nat → EvalM α} {y : Nat → EvalM β}
    (h : EvalM.mayEnter limit? (start + k) = true → S.Sim (k + 1) L A x y) :
    S.Sim k L A (fun i => EvalM.nested limit? (x i)) (fun i => EvalM.nested limit? (y i)) := by
  intro m n hm hL
  obtain ⟨hsame, hcount⟩ := (hdepth _ _ _).mp hm.depth
  cases hmay : EvalM.mayEnter limit? m.depth with
  | false =>
    have hmay' : EvalM.mayEnter limit? n.depth = false := by rw [hsame, hmay]
    simp only [EvalM.nested_of_refused hmay, EvalM.nested_of_refused hmay']
    exact .failed _ hm hL
  | true =>
    have hmay' : EvalM.mayEnter limit? n.depth = true := by rw [hsame, hmay]
    simp only [EvalM.nested_of_mayEnter hmay, EvalM.nested_of_mayEnter hmay']
    refine EndAlike.nested (h (hcount ▸ hmay)) hm hL ?_ ?_
    · exact (hdepth _ _ _).mpr ⟨by rw [hsame], by rw [hcount]; rfl⟩
    · intro d d' hd
      obtain ⟨rfl, hd⟩ := (hdepth _ _ _).mp hd
      exact (hdepth _ _ _).mpr ⟨rfl, by omega⟩

end Simulation

end ExprLang
