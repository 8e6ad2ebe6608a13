import ExprLang.Eval
import ExprLang.Proofs.Members
import ExprLang.Proofs.Nodes
import Mathlib.Data.List.Forall2
import Mathlib.Order.Basic

/-!
# Cells that stand for each other

Two stores may hold the same data at different places. `Links` says which cells of the one stand
for which cells of the other; values, members, slots and functions are linked if they differ only in
the cells they refer to. The links also say what is known of the literal nodes in the code that both
run.
-/

namespace ExprLang

/-- Which cells of one store stand for which cells of another, and which literals may stand at which
    nodes. -/
structure Links where
  frames : Nat → Nat → Prop
  arrays : Nat → Nat → Prop
  objects : Nat → Nat → Prop
  functions : Nat → Nat → Prop
  nodes : Literal → Nat → Prop := fun _ _ => True

namespace Links

/-- Every cell stands for itself only, some nodes being known. -/
def equal (nodes : Literal → Nat → Prop) : Links := ⟨Eq, Eq, Eq, Eq, nodes⟩

/-- Every cell stands for itself only, and nothing is asked of nodes. -/
abbrev same : Links := .equal fun _ _ => True

/-- Cells linked by the first are linked by the second, which knows as many nodes. -/
structure Within (L L' : Links) : Prop where
  frames : ∀ {a b}, L.frames a b → L'.frames a b
  arrays : ∀ {a b}, L.arrays a b → L'.arrays a b
  objects : ∀ {a b}, L.objects a b → L'.objects a b
  functions : ∀ {a b}, L.functions a b → L'.functions a b
  nodes : ∀ {l node}, L.nodes l node → L'.nodes l node

instance : Preorder Links where
  le := Within
  le_refl := fun _ => ⟨id, id, id, id, id⟩
  le_trans := fun _ _ _ h h' => ⟨fun r => h'.frames (h.frames r), fun r => h'.arrays (h.arrays r),
    fun r => h'.objects (h.objects r), fun r => h'.functions (h.functions r),
    fun r => h'.nodes (h.nodes r)⟩

/-- All nodes of an expression are known. -/
def Knows (L : Links) (e : Expr) : Prop := ∀ x ∈ e.nodes, L.nodes x.1 x.2

variable {L L' : Links} {e : Expr}

theorem same_knows (e : Expr) : same.Knows e := fun _ _ => trivial

theorem Knows.mono (h : L.Knows e) (hL : L ≤ L') : L'.Knows e :=
  fun x hx => hL.nodes (h x hx)

theorem Knows.part (h : L.Knows e) {part : Expr} (hpart : part ∈ e.parts) : L.Knows part :=
  fun x hx => h x (Expr.nodes_part hpart hx)

end Links

/-- Values that are equal but for linked cells. -/
inductive Value.Linked (L : Links) : Value → Value → Prop
  | int (n : Int64) : Linked L (.int n) (.int n)
  | double (x : Double) : Linked L (.double x) (.double x)
  | text (s : Text) : Linked L (.text s) (.text s)
  | array {a b : Nat} (h : L.arrays a b) : Linked L (.array a) (.array b)
  | object {a b : Nat} (h : L.objects a b) : Linked L (.object a) (.object b)
  | function {a b : Nat} (h : L.functions a b) : Linked L (.function a) (.function b)
  | scope {a b : Nat} (h : L.frames a b) : Linked L (.scope a) (.scope b)

/-- A value that refers to no cell. -/
def Value.IsScalar : Value → Prop
  | .int _ | .double _ | .text _ => True
  | _ => False

namespace Value

variable {L L' : Links} {v w : Value}

theorem Linked.mono (h : v.Linked L w) (hL : L ≤ L') : v.Linked L' w := by
  cases h with
  | int n => exact .int n
  | double x => exact .double x
  | text s => exact .text s
  | array h => exact .array (hL.arrays h)
  | object h => exact .object (hL.objects h)
  | function h => exact .function (hL.functions h)
  | scope h => exact .scope (hL.frames h)

theorem Linked.kind_eq (h : v.Linked L w) : v.kind = w.kind := by
  cases h <;> rfl

theorem IsScalar.linked (h : v.IsScalar) : v.Linked L v := by
  cases v with
  | int n => exact .int n
  | double x => exact .double x
  | text s => exact .text s
  | _ => cases h

theorem linked_ofBool (L : Links) (b : Bool) : (ofBool b).Linked L (ofBool b) := .int _

theorem linked_zero (L : Links) : zero.Linked L zero := .int _

theorem linked_ofNat (L : Links) (n : Nat) : (ofNat n).Linked L (ofNat n) := .int _

theorem linked_toValue (L : Links) (x : Scalar) : x.toValue.Linked L x.toValue := by
  cases x with
  | int n => exact .int n
  | double x => exact .double x
  | text s => exact .text s

theorem linked_equal {nodes : Literal → Nat → Prop} : v.Linked (.equal nodes) w ↔ v = w := by
  constructor
  · intro h
    cases h with
    | array h => exact congrArg Value.array h
    | object h => exact congrArg Value.object h
    | function h => exact congrArg Value.function h
    | scope h => exact congrArg Value.scope h
    | _ => rfl
  · rintro rfl
    cases v with
    | int n => exact .int n
    | double x => exact .double x
    | text s => exact .text s
    | array a => exact .array (rfl : a = a)
    | object a => exact .object (rfl : a = a)
    | function a => exact .function (rfl : a = a)
    | scope a => exact .scope (rfl : a = a)

/-- Lists of values that are linked one by one. -/
def AllLinked (L : Links) : List Value → List Value → Prop := List.Forall₂ (Linked L)

theorem AllLinked.mono {vs ws : List Value} (h : AllLinked L vs ws) (hL : L ≤ L') :
    AllLinked L' vs ws :=
  h.imp fun _ _ hv => hv.mono hL

theorem AllLinked.map_eq {α : Type} {f g : Value → α} {vs ws : List Value} (h : AllLinked L vs ws)
    (hfg : ∀ v w, v.Linked L w → f v = g w) : vs.map f = ws.map g := by
  unfold AllLinked at h
  induction h with
  | nil => rw [List.map_nil, List.map_nil]
  | cons hv _ ih => rw [List.map_cons, List.map_cons, ih, hfg _ _ hv]

/-- Linked arguments look the same to the host. -/
theorem AllLinked.map_ofValue {vs ws : List Value} (h : AllLinked L vs ws) :
    vs.map Argument.ofValue = ws.map Argument.ofValue := by
  refine h.map_eq ?_
  intro v w hv
  cases hv <;> rfl

theorem allLinked_equal {nodes : Literal → Nat → Prop} {vs ws : List Value} :
    AllLinked (.equal nodes) vs ws ↔ vs = ws := by
  unfold AllLinked
  rw [← List.forall₂_eq_eq_eq]
  constructor
  · exact fun h => h.imp fun _ _ => linked_equal.mp
  · exact fun h => h.imp fun _ _ => linked_equal.mpr

end Value

/-- The elements of lists that are related one by one. -/
theorem rel_getElem? {α β : Type} {r : α → β → Prop} {xs : List α} {ys : List β}
    (h : List.Forall₂ r xs ys) (i : Nat) : Option.Rel r xs[i]? ys[i]? := by
  induction h generalizing i with
  | nil => exact .none
  | cons hxy _ ih =>
    cases i with
    | zero => exact .some hxy
    | succ i => exact ih i

theorem forall₂_set {α β : Type} {r : α → β → Prop} {xs : List α} {ys : List β}
    (h : List.Forall₂ r xs ys) (i : Nat) {x : α} {y : β} (hxy : r x y) :
    List.Forall₂ r (xs.set i x) (ys.set i y) := by
  induction h generalizing i with
  | nil => exact .nil
  | cons hhead rest ih =>
    cases i with
    | zero => exact .cons hxy rest
    | succ i => exact .cons hhead (ih i)

/-- Related options are both absent, or both present with related contents. -/
theorem rel_cases {α β : Type} {r : α → β → Prop} {x : Option α} {y : Option β}
    (h : Option.Rel r x y) :
    (x = none ∧ y = none) ∨ ∃ a b, x = some a ∧ y = some b ∧ r a b := by
  cases h with
  | none => exact .inl ⟨rfl, rfl⟩
  | some h => exact .inr ⟨_, _, rfl, rfl, h⟩

/-- Entries with the same keys in the same order and linked values. -/
def EntriesLinked (L : Links) : List (Text × Value) → List (Text × Value) → Prop :=
  List.Forall₂ fun x y => x.1 = y.1 ∧ x.2.Linked L y.2

namespace EntriesLinked

variable {L L' : Links} {xs ys : List (Text × Value)}

theorem mono (h : EntriesLinked L xs ys) (hL : L ≤ L') : EntriesLinked L' xs ys :=
  List.Forall₂.imp (fun _ _ hv => ⟨hv.1, hv.2.mono hL⟩) h

theorem equal_iff {nodes : Literal → Nat → Prop} :
    EntriesLinked (.equal nodes) xs ys ↔ xs = ys := by
  have eq_iff : (fun x y : Text × Value => x.1 = y.1 ∧ x.2.Linked (.equal nodes) y.2) = Eq := by
    funext x y
    simp [Value.linked_equal, Prod.ext_iff]
  rw [EntriesLinked, eq_iff, List.forall₂_eq_eq_eq]

theorem lookup (h : EntriesLinked L xs ys) (key : Text) :
    Option.Rel (Value.Linked L) (xs.lookup key) (ys.lookup key) := by
  induction h with
  | nil => exact .none
  | @cons x y xs ys hxy _ ih =>
    obtain ⟨k, v⟩ := x
    obtain ⟨k', w⟩ := y
    obtain ⟨rfl, hvw⟩ := hxy
    simp only [List.lookup_cons]
    split
    · exact .some hvw
    · exact ih

theorem insert (h : EntriesLinked L xs ys) (key : Text) {v w : Value} (hv : v.Linked L w) :
    EntriesLinked L (Assoc.insert key v xs) (Assoc.insert key w ys) := by
  induction h with
  | nil => exact .cons ⟨rfl, hv⟩ .nil
  | @cons x y xs ys hxy rest ih =>
    obtain ⟨k, v'⟩ := x
    obtain ⟨k', w'⟩ := y
    obtain ⟨rfl, hvw⟩ := hxy
    simp only [Assoc.insert]
    split
    · exact .cons ⟨rfl, hv⟩ rest
    · exact .cons ⟨rfl, hvw⟩ ih

end EntriesLinked

namespace Members

variable {L L' : Links} {m n : Members}

/-- Members with the same keys in the same order and maps that link the values of each key. -/
structure Linked (L : Links) (m n : Members) : Prop where
  keys : m.keys = n.keys
  vals : EntriesLinked L m.vals n.vals

theorem Linked.mono (h : m.Linked L n) (hL : L ≤ L') : m.Linked L' n :=
  ⟨h.keys, h.vals.mono hL⟩

theorem Linked.empty : Members.empty.Linked L .empty := ⟨rfl, .nil⟩

theorem linked_equal {nodes : Literal → Nat → Prop} : m.Linked (.equal nodes) n ↔ m = n := by
  constructor
  · rintro ⟨hkeys, hvals⟩
    obtain ⟨keys, vals⟩ := m
    obtain ⟨keys', vals'⟩ := n
    cases hkeys
    cases EntriesLinked.equal_iff.mp hvals
    rfl
  · rintro rfl
    exact ⟨rfl, EntriesLinked.equal_iff.mpr rfl⟩

theorem Linked.get? (h : m.Linked L n) (key : Text) :
    Option.Rel (Value.Linked L) (m.get? key) (n.get? key) :=
  h.vals.lookup key

theorem Linked.has_eq (h : m.Linked L n) (key : Text) : m.has key = n.has key := by
  unfold Members.has
  rcases rel_cases (h.get? key) with ⟨hm, hn⟩ | ⟨v, w, hm, hn, -⟩ <;> rw [hm, hn]
  rfl

theorem Linked.size_eq (h : m.Linked L n) : m.size = n.size := by
  rw [size, size, h.keys]

theorem Linked.entries (h : m.Linked L n) : EntriesLinked L m.entries n.entries := by
  unfold Members.entries
  rw [h.keys]
  induction n.keys with
  | nil => exact .nil
  | cons key keys ih =>
    rw [List.filterMap_cons, List.filterMap_cons]
    rcases rel_cases (h.get? key) with ⟨hm, hn⟩ | ⟨v, w, hm, hn, hvw⟩ <;> rw [hm, hn]
    · exact ih
    · exact .cons ⟨rfl, hvw⟩ ih

/-- What is made of each entry, if it is the same for linked values. -/
theorem Linked.map_entries_eq {α : Type} {f g : Text × Value → α} (h : m.Linked L n)
    (hfg : ∀ key v w, v.Linked L w → (key, v) ∈ m.entries → (key, w) ∈ n.entries →
      f (key, v) = g (key, w)) : m.entries.map f = n.entries.map g := by
  have hentries := h.entries
  generalize m.entries = xs at hentries hfg ⊢
  generalize n.entries = ys at hentries hfg ⊢
  induction hentries with
  | nil => rw [List.map_nil, List.map_nil]
  | @cons x y xs ys hxy _ ih =>
    obtain ⟨key, v⟩ := x
    obtain ⟨key', w⟩ := y
    obtain ⟨rfl, hv⟩ := hxy
    have hrest := ih fun key v w hv hx hy =>
      hfg key v w hv (List.mem_cons_of_mem _ hx) (List.mem_cons_of_mem _ hy)
    rw [List.map_cons, List.map_cons, hrest,
      hfg key v w hv List.mem_cons_self List.mem_cons_self]

theorem Linked.put (h : m.Linked L n) (key : Text) {v w : Value} (hv : v.Linked L w) :
    (m.put key v).Linked L (n.put key w) := by
  refine ⟨?_, h.vals.insert key hv⟩
  simp only [Members.put, h.has_eq key, h.keys]

theorem Linked.putAll {es fs : List (Text × Value)} (hes : EntriesLinked L es fs) :
    ∀ {m n : Members}, m.Linked L n → (m.putAll es).Linked L (n.putAll fs) := by
  induction hes with
  | nil => exact fun h => h
  | @cons x y es fs hxy _ ih =>
    obtain ⟨k, v⟩ := x
    obtain ⟨k', w⟩ := y
    obtain ⟨rfl, hvw⟩ := hxy
    exact fun h => ih (h.put k hvw)

theorem Linked.ofList {es fs : List (Text × Value)} (hes : EntriesLinked L es fs) :
    (ofList es).Linked L (ofList fs) :=
  Linked.putAll hes .empty

end Members

/-- Slots that are equal but for linked cells. -/
inductive Slot.Linked (L : Links) : Slot → Slot → Prop
  | name {a b : Nat} (h : L.frames a b) (key : Text) : Linked L (.name a key) (.name b key)
  | element {a b : Nat} (h : L.arrays a b) (index : Int64) :
    Linked L (.element a index) (.element b index)
  | member {a b : Nat} (h : L.objects a b) (key : Text) : Linked L (.member a key) (.member b key)
  | immediate {v w : Value} (h : v.Linked L w) : Linked L (.immediate v) (.immediate w)

theorem Slot.Linked.mono {L L' : Links} {x y : Slot} (h : x.Linked L y) (hL : L ≤ L') :
    x.Linked L' y := by
  cases h with
  | name h key => exact .name (hL.frames h) key
  | element h index => exact .element (hL.arrays h) index
  | member h key => exact .member (hL.objects h) key
  | immediate h => exact .immediate (h.mono hL)

/-- Functions that are equal but for the scopes that closures were made in. The nodes of a closure's
    body are known. -/
inductive Function.Linked (L : Links) : Function → Function → Prop
  | primitive (op : Primitive) : Linked L (.primitive op) (.primitive op)
  | form (op : Form) : Linked L (.form op) (.form op)
  | closure (arity : Arity) {body : Expr} (hbody : L.Knows body) {a b : Nat} (h : L.frames a b) :
    Linked L (.closure arity body a) (.closure arity body b)

/-- All nodes of a function are known. -/
def Links.KnowsIn (L : Links) : Function → Prop
  | .closure _ body _ => L.Knows body
  | _ => True

theorem Function.Linked.mono {L L' : Links} {f g : Function} (h : f.Linked L g) (hL : L ≤ L') :
    f.Linked L' g := by
  cases h with
  | primitive op => exact .primitive op
  | form op => exact .form op
  | closure arity hbody h => exact .closure arity (hbody.mono hL) (hL.frames h)

theorem Links.same_knowsIn (f : Function) : Links.same.KnowsIn f := by
  cases f with
  | closure arity body scope => exact Links.same_knows body
  | _ => trivial

theorem Links.KnowsIn.mono {L L' : Links} {f : Function} (h : L.KnowsIn f) (hL : L ≤ L') :
    L'.KnowsIn f := by
  cases f with
  | closure arity body scope => exact Links.Knows.mono h hL
  | _ => trivial

theorem Function.linked_self {L : Links} (f : Function) (hscope : ∀ a, L.frames a a)
    (hf : L.KnowsIn f) : f.Linked L f := by
  cases f with
  | primitive op => exact .primitive op
  | form op => exact .form op
  | closure arity body a => exact .closure arity hf (hscope a)

theorem Function.linked_equal {nodes : Literal → Nat → Prop} {f g : Function} :
    f.Linked (.equal nodes) g ↔ f = g ∧ (Links.equal nodes).KnowsIn f := by
  constructor
  · intro h
    cases h with
    | primitive op => exact ⟨rfl, trivial⟩
    | form op => exact ⟨rfl, trivial⟩
    | closure arity hbody h => exact ⟨congrArg (Function.closure arity _) h, hbody⟩
  · rintro ⟨rfl, hf⟩
    exact f.linked_self (fun _ => rfl) hf

end ExprLang
