import ExprLang.Proofs.LinkedStores

/-!
# Cells that can be reached

A cell refers to the cells that its contents name: a frame to its parent, its root and the values
of its names, a container to what is in it, a closure to the scope it was made in. The cells that
can be reached from a scope are all that a program running in it can get hold of, beside those that
are added while it runs.
-/

namespace ExprLang

/-- A cell of a store. -/
inductive Cell where
  | frame (id : Nat)
  | array (id : Nat)
  | object (id : Nat)
  | function (id : Nat)
  deriving DecidableEq, Repr

/-- What a cell holds. -/
inductive Content where
  | frame (frame : Frame)
  | array (elems : Array Value)
  | object (members : Members)
  | function (f : Function)

/-- The cell that a value refers to. -/
def Value.cell? : Value → Option Cell
  | .array id => some (.array id)
  | .object id => some (.object id)
  | .function id => some (.function id)
  | .scope id => some (.frame id)
  | _ => none

/-- The cells that the values of members refer to. -/
def Members.cells (m : Members) : List Cell := m.vals.filterMap fun entry => entry.2.cell?

/-- The cells that what a cell holds refers to. -/
def Content.cells : Content → List Cell
  | .frame f => .frame f.root :: f.parent.toList.map .frame ++ f.members.cells
  | .array elems => elems.toList.filterMap Value.cell?
  | .object members => members.cells
  | .function (.closure _ _ scope) => [.frame scope]
  | .function _ => []

/-- What a cell of a store holds, if there is such a cell. -/
def Store.cell? (s : Store) : Cell → Option Content
  | .frame id => s.frames[id]?.map .frame
  | .array id => s.arrays[id]?.map .array
  | .object id => s.objects[id]?.map .object
  | .function id => s.functions[id]?.map .function

/-- The cells that can be reached from a cell by following what cells hold. -/
inductive Store.Reaches (s : Store) (start : Cell) : Cell → Prop
  | start : Reaches s start start
  | step {c d : Cell} {content : Content} (h : Reaches s start c) (hc : s.cell? c = some content)
    (hd : d ∈ content.cells) : Reaches s start d

/-- A set of cells from which no other cell can be reached. -/
def Store.Closed (s : Store) (R : Cell → Prop) : Prop :=
  ∀ c content, R c → s.cell? c = some content → ∀ d ∈ content.cells, R d

theorem Store.closed_reaches (s : Store) (start : Cell) : s.Closed (s.Reaches start) :=
  fun _ _ h hc _ hd => h.step hc hd

/-- Nothing outside of a closed set can be reached from inside it. -/
theorem Store.Reaches.mem {s : Store} {R : Cell → Prop} {start c : Cell} (h : s.Reaches start c)
    (hclosed : s.Closed R) (hstart : R start) : R c := by
  induction h with
  | start => exact hstart
  | step _ hc hd ih => exact hclosed _ _ ih hc _ hd

/-! ## Links across a region -/

/-- The cells of one kind that two stores share, and beyond those the cells that are added to both
    at the same time. -/
def sharedOrNew (R : Nat → Prop) (size size' a b : Nat) : Prop :=
  a = b ∧ R a ∧ a < size ∧ b < size' ∨ ∃ i, a = size + i ∧ b = size' + i

theorem orderPreserving_sharedOrNew (R : Nat → Prop) (size size' : Nat) :
    OrderPreserving (sharedOrNew R size size') where
  lt_iff := by
    rintro a b a' b' (⟨rfl, -, ha, hb⟩ | ⟨i, rfl, rfl⟩) (⟨rfl, -, ha', hb'⟩ | ⟨j, rfl, rfl⟩)
    all_goals omega

/-- The links of two stores that share the cells of a region. -/
def Links.across (R : Cell → Prop) (s t : Store) : Links where
  frames := sharedOrNew (fun id => R (.frame id)) s.frames.size t.frames.size
  arrays := sharedOrNew (fun id => R (.array id)) s.arrays.size t.arrays.size
  objects := sharedOrNew (fun id => R (.object id)) s.objects.size t.objects.size
  functions := sharedOrNew (fun id => R (.function id)) s.functions.size t.functions.size

theorem Links.across_ordered (R : Cell → Prop) (s t : Store) : (across R s t).Ordered :=
  ⟨orderPreserving_sharedOrNew _ _ _, orderPreserving_sharedOrNew _ _ _,
    orderPreserving_sharedOrNew _ _ _, orderPreserving_sharedOrNew _ _ _, fun _ _ => trivial⟩

/-- Cells that stand for each other. -/
inductive Links.Pairs (L : Links) : Cell → Cell → Prop
  | frame {a b : Nat} (h : L.frames a b) : Pairs L (.frame a) (.frame b)
  | array {a b : Nat} (h : L.arrays a b) : Pairs L (.array a) (.array b)
  | object {a b : Nat} (h : L.objects a b) : Pairs L (.object a) (.object b)
  | function {a b : Nat} (h : L.functions a b) : Pairs L (.function a) (.function b)

section Self

variable {L : Links}

/-- A value that refers to no cell or to one that stands for itself. -/
theorem Value.linked_self {v : Value} (h : ∀ c ∈ v.cell?, L.Pairs c c) : v.Linked L v := by
  cases v with
  | int n => exact .int n
  | double x => exact .double x
  | text x => exact .text x
  | array id => cases h _ rfl with | array h => exact .array h
  | object id => cases h _ rfl with | object h => exact .object h
  | function id => cases h _ rfl with | function h => exact .function h
  | scope id => cases h _ rfl with | frame h => exact .scope h

theorem Value.allLinked_self {vs : List Value} (h : ∀ c ∈ vs.filterMap Value.cell?, L.Pairs c c) :
    AllLinked L vs vs := by
  refine List.forall₂_same.mpr fun v hv => Value.linked_self fun c hc => ?_
  exact h c (List.mem_filterMap.mpr ⟨v, hv, hc⟩)

theorem Members.linked_self {m : Members} (h : ∀ c ∈ m.cells, L.Pairs c c) : m.Linked L m := by
  refine ⟨rfl, List.forall₂_same.mpr fun entry hentry => ⟨rfl, Value.linked_self fun c hc => ?_⟩⟩
  exact h c (List.mem_filterMap.mpr ⟨entry, hentry, hc⟩)

/-- Contents that are equal but for linked cells. -/
inductive Content.Linked (L : Links) : Content → Content → Prop
  | frame {f g : Frame} (h : f.Linked L g) : Linked L (.frame f) (.frame g)
  | array {xs ys : Array Value} (h : Value.AllLinked L xs.toList ys.toList) :
    Linked L (.array xs) (.array ys)
  | object {m n : Members} (h : m.Linked L n) : Linked L (.object m) (.object n)
  | function {f g : Function} (h : f.Linked L g) : Linked L (.function f) (.function g)

theorem Content.linked_self {content : Content} (hnodes : ∀ l node, L.nodes l node)
    (h : ∀ c ∈ content.cells, L.Pairs c c) : content.Linked L content := by
  cases content with
  | frame f =>
    obtain ⟨hroot, hrest⟩ := List.forall_mem_cons.mp h
    obtain ⟨hparent, hmembers⟩ := List.forall_mem_append.mp hrest
    refine .frame ⟨?_, ?_, Members.linked_self hmembers⟩
    · cases hp : f.parent with
      | none => exact .none
      | some p =>
        rw [hp] at hparent
        cases hparent (.frame p) List.mem_cons_self with | frame h => exact .some h
    · cases hroot with | frame h => exact h
  | array elems => exact .array (Value.allLinked_self h)
  | object members => exact .object (Members.linked_self h)
  | function f =>
    cases f with
    | primitive op => exact .function (.primitive op)
    | form op => exact .function (.form op)
    | closure arity body scope =>
      cases h (.frame scope) List.mem_cons_self with
      | frame h => exact .function (.closure arity (fun x _ => hnodes x.1 x.2) h)

end Self

/-- Cells of one kind, if those that the stores share hold the same and refer to nothing else. -/
theorem cells_sharedOrNew {α : Type} {R : Nat → Prop} {Q : α → α → Prop} {xs ys : Array α}
    (h : ∀ a x, R a → xs[a]? = some x → ys[a]? = some x ∧ Q x x) :
    Cells (sharedOrNew R xs.size ys.size) Q xs ys where
  get := by
    rintro a b (⟨rfl, hR, ha, -⟩ | ⟨i, rfl, rfl⟩)
    · obtain ⟨hy, hQ⟩ := h a xs[a] hR (Array.getElem?_eq_getElem ha)
      rw [Array.getElem?_eq_getElem ha, hy]
      exact .some hQ
    · rw [Array.getElem?_eq_none (Nat.le_add_right _ _),
        Array.getElem?_eq_none (Nat.le_add_right _ _)]
      exact .none
  fresh := fun i => .inr ⟨i, rfl, rfl⟩

namespace Store

variable {R : Cell → Prop} {s t : Store}

/-- Stores that hold the same in a closed region are linked across it. -/
theorem linked_across {ok : Function → Prop} (hclosed : s.Closed R)
    (hsame : ∀ c, R c → t.cell? c = s.cell? c) (hself : ∀ c, R c → (Links.across R s t).Pairs c c)
    (hok : ∀ id f, R (.function id) → s.functions[id]? = some f → ok f) :
    s.Linked (.across R s t) ok t := by
  have hshared {c : Cell} {content : Content} (hR : R c) (hc : s.cell? c = some content) :
      t.cell? c = some content ∧ content.Linked (.across R s t) content :=
    ⟨(hsame c hR).trans hc,
      Content.linked_self (fun _ _ => trivial) fun d hd => hself d (hclosed c content hR hc d hd)⟩
  constructor
  · refine cells_sharedOrNew fun a f hR hf => ?_
    obtain ⟨ht, hlinked⟩ := hshared hR (congrArg (Option.map Content.frame) hf)
    obtain ⟨g, hg, hgf⟩ := Option.map_eq_some_iff.mp ht
    cases hgf
    cases hlinked with | frame h => exact ⟨hg, h⟩
  · refine cells_sharedOrNew fun a xs hR hxs => ?_
    obtain ⟨ht, hlinked⟩ := hshared hR (congrArg (Option.map Content.array) hxs)
    obtain ⟨ys, hys, heq⟩ := Option.map_eq_some_iff.mp ht
    cases heq
    cases hlinked with | array h => exact ⟨hys, h⟩
  · refine cells_sharedOrNew fun a m hR hm => ?_
    obtain ⟨ht, hlinked⟩ := hshared hR (congrArg (Option.map Content.object) hm)
    obtain ⟨n, hn, heq⟩ := Option.map_eq_some_iff.mp ht
    cases heq
    cases hlinked with | object h => exact ⟨hn, h⟩
  · refine cells_sharedOrNew fun a f hR hf => ?_
    obtain ⟨ht, hlinked⟩ := hshared hR (congrArg (Option.map Content.function) hf)
    obtain ⟨g, hg, hgf⟩ := Option.map_eq_some_iff.mp ht
    cases hgf
    cases hlinked with | function h => exact ⟨hg, h, hok a f hR hf⟩

theorem sharedOrNew_of_map {α β : Type} {R : Nat → Prop} {xs ys : Array α} {f : α → β} {a : Nat}
    (hR : R a) (hxs : xs[a]?.map f ≠ none) (hys : ys[a]?.map f ≠ none) :
    sharedOrNew R xs.size ys.size a a :=
  .inl ⟨rfl, hR, by simpa using hxs, by simpa using hys⟩

/-- A cell of the region that both stores have stands for itself. -/
theorem pairs_across {c : Cell} (hR : R c) (hs : s.cell? c ≠ none) (ht : t.cell? c ≠ none) :
    (Links.across R s t).Pairs c c := by
  cases c with
  | frame id => exact .frame (sharedOrNew_of_map (R := fun id => R (.frame id)) hR hs ht)
  | array id => exact .array (sharedOrNew_of_map (R := fun id => R (.array id)) hR hs ht)
  | object id => exact .object (sharedOrNew_of_map (R := fun id => R (.object id)) hR hs ht)
  | function id => exact .function (sharedOrNew_of_map (R := fun id => R (.function id)) hR hs ht)

theorem sharedOrNew_self (R : Nat → Prop) {a : Nat} (hR : R a) (size : Nat) :
    sharedOrNew R size size a a := by
  by_cases ha : a < size
  · exact .inl ⟨rfl, hR, ha, ha⟩
  · exact .inr ⟨a - size, by omega, by omega⟩

/-- In a store beside itself every cell of the region stands for itself. -/
theorem pairs_across_self {c : Cell} (hR : R c) : (Links.across R s s).Pairs c c := by
  cases c with
  | frame id => exact .frame (sharedOrNew_self (fun id => R (.frame id)) hR _)
  | array id => exact .array (sharedOrNew_self (fun id => R (.array id)) hR _)
  | object id => exact .object (sharedOrNew_self (fun id => R (.object id)) hR _)
  | function id => exact .function (sharedOrNew_self (fun id => R (.function id)) hR _)

end Store

end ExprLang
