import ExprLang.Proofs.Growth
import ExprLang.Proofs.PlainData
import ExprLang.Proofs.WellFormed

/-!
# Intact stores

An intact store is well-formed, has every cell that it refers to, and its frames are younger than
their parents. Programs keep stores intact and come to values whose cells are there
(`Simulation.intact_interps`), so that a cell that is added is one that nothing has referred to.
-/

namespace ExprLang

/-! ## Cells that are there -/

namespace Store

/-- Whether a store has a cell. -/
def Has (s : Store) (c : Cell) : Prop := s.cell? c ≠ none

variable {s s' : Store}

theorem has_frame {id : Nat} : s.Has (.frame id) ↔ id < s.frames.size := by simp [Has, cell?]

theorem has_array {id : Nat} : s.Has (.array id) ↔ id < s.arrays.size := by simp [Has, cell?]

theorem has_object {id : Nat} : s.Has (.object id) ↔ id < s.objects.size := by simp [Has, cell?]

theorem has_function {id : Nat} : s.Has (.function id) ↔ id < s.functions.size := by
  simp [Has, cell?]

theorem has_of_cell? {c : Cell} {content : Content} (h : s.cell? c = some content) : s.Has c := by
  rw [Has, h]
  exact Option.some_ne_none _

end Store

theorem GrownCells.size_le {α : Type} {R : α → α → Prop} {xs ys : Array α}
    (h : GrownCells R xs ys) : xs.size ≤ ys.size := by
  by_contra hlt
  push Not at hlt
  obtain ⟨y, hy, -⟩ := h ys.size xs[ys.size] (Array.getElem?_eq_getElem hlt)
  exact absurd (Array.getElem?_eq_some_iff.mp hy).1 (Nat.lt_irrefl _)

/-- No cell of a store is lost. -/
theorem Store.Grows.has {s s' : Store} (h : s.Grows s') {c : Cell} (hc : s.Has c) : s'.Has c := by
  cases c with
  | frame id => exact has_frame.mpr ((has_frame.mp hc).trans_le h.frames.size_le)
  | array id => exact has_array.mpr ((has_array.mp hc).trans_le h.arrays.size_le)
  | object id => exact has_object.mpr ((has_object.mp hc).trans_le h.objects.size_le)
  | function id => exact has_function.mpr ((has_function.mp hc).trans_le h.functions.size_le)

/-- A value that refers to no cell or to one that is there. -/
def Value.In (s : Store) (v : Value) : Prop := ∀ c ∈ v.cell?, s.Has c

theorem Value.In.within {s : Store} {v : Value} (h : v.In s) : v.Within s.frames.size := by
  rintro id rfl
  exact Store.has_frame.mp (h _ rfl)

/-! ## Linked cells -/

section Pairs

variable {L : Links} {c : Cell}

theorem Value.Linked.exists_pair {v w : Value} (h : v.Linked L w) (hc : c ∈ v.cell?) :
    ∃ d, L.Pairs c d := by
  cases h with
  | array hab =>
    cases hc
    exact ⟨_, .array hab⟩
  | object hab =>
    cases hc
    exact ⟨_, .object hab⟩
  | function hab =>
    cases hc
    exact ⟨_, .function hab⟩
  | scope hab =>
    cases hc
    exact ⟨_, .frame hab⟩
  | _ => cases hc

theorem Slot.linked_equal {x y : Slot} : x.Linked .same y ↔ x = y := by
  constructor
  · intro h
    cases h with
    | name h key => rw [show _ = _ from h]
    | element h index => rw [show _ = _ from h]
    | member h key => rw [show _ = _ from h]
    | immediate h => rw [Value.linked_equal.mp h]
  · rintro rfl
    cases x with
    | name scope key => exact .name rfl key
    | element array index => exact .element rfl index
    | member object key => exact .member rfl key
    | immediate v => exact .immediate (Value.linked_equal.mpr rfl)

theorem Members.Linked.exists_pair {m n : Members} (h : m.Linked L n) (hc : c ∈ m.cells) :
    ∃ d, L.Pairs c d := by
  obtain ⟨entry, hentry, hcell⟩ := List.mem_filterMap.mp hc
  obtain ⟨entry', -, -, hlinked⟩ := exists_of_forall₂ h.vals hentry
  exact hlinked.exists_pair hcell

/-- Every cell that linked contents refer to stands for some cell. -/
theorem Content.Linked.exists_pair {content content' : Content} (h : content.Linked L content')
    (hc : c ∈ content.cells) : ∃ d, L.Pairs c d := by
  cases h with
  | frame h =>
    rw [Content.cells, List.cons_append, List.mem_cons, List.mem_append, List.mem_map] at hc
    rcases hc with rfl | ⟨p, hp, rfl⟩ | hc
    · exact ⟨_, .frame h.root⟩
    · rcases rel_cases h.parent with ⟨hnone, -⟩ | ⟨a, b, ha, -, hab⟩
      · rw [hnone] at hp
        cases hp
      · rw [ha, Option.toList_some, List.mem_singleton] at hp
        exact ⟨_, .frame (hp ▸ hab)⟩
    · exact h.members.exists_pair hc
  | array h =>
    obtain ⟨v, hv, hcell⟩ := List.mem_filterMap.mp hc
    obtain ⟨w, -, hlinked⟩ := exists_of_forall₂ h hv
    exact hlinked.exists_pair hcell
  | object h => exact Members.Linked.exists_pair h hc
  | function h =>
    cases h with
    | closure arity body hab =>
      cases List.mem_singleton.mp hc
      exact ⟨_, .frame hab⟩
    | primitive op => cases hc
    | form op => cases hc

end Pairs

/-- Every cell of a store stands for itself. -/
def Store.present (s : Store) : Links where
  frames := fun a b => a = b ∧ a < s.frames.size
  arrays := fun a b => a = b ∧ a < s.arrays.size
  objects := fun a b => a = b ∧ a < s.objects.size
  functions := fun a b => a = b ∧ a < s.functions.size

section Present

variable {s s' : Store}

theorem Store.present_le_same : s.present ≤ .same :=
  ⟨And.left, And.left, And.left, And.left, id⟩

theorem Store.Grows.present_le (h : s.Grows s') : s.present ≤ s'.present where
  frames := fun hab => ⟨hab.1, hab.2.trans_le h.frames.size_le⟩
  arrays := fun hab => ⟨hab.1, hab.2.trans_le h.arrays.size_le⟩
  objects := fun hab => ⟨hab.1, hab.2.trans_le h.objects.size_le⟩
  functions := fun hab => ⟨hab.1, hab.2.trans_le h.functions.size_le⟩
  nodes := id

theorem Links.Pairs.has {c d : Cell} (h : s.present.Pairs c d) : s.Has c := by
  cases h with
  | frame hab => exact Store.has_frame.mpr hab.2
  | array hab => exact Store.has_array.mpr hab.2
  | object hab => exact Store.has_object.mpr hab.2
  | function hab => exact Store.has_function.mpr hab.2

theorem Store.Has.pairs {c : Cell} (h : s.Has c) : s.present.Pairs c c := by
  cases c with
  | frame id => exact .frame ⟨rfl, has_frame.mp h⟩
  | array id => exact .array ⟨rfl, has_array.mp h⟩
  | object id => exact .object ⟨rfl, has_object.mp h⟩
  | function id => exact .function ⟨rfl, has_function.mp h⟩

theorem Value.linked_present {v w : Value} : v.Linked s.present w ↔ v = w ∧ v.In s := by
  constructor
  · intro h
    refine ⟨linked_equal.mp (h.mono Store.present_le_same), fun c hc => ?_⟩
    obtain ⟨d, hd⟩ := h.exists_pair hc
    exact hd.has
  · rintro ⟨rfl, h⟩
    exact linked_self fun c hc => (h c hc).pairs

theorem Value.allLinked_present {vs ws : List Value} :
    AllLinked s.present vs ws ↔ vs = ws ∧ ∀ v ∈ vs, v.In s := by
  constructor
  · intro h
    refine ⟨allLinked_equal.mp (h.mono Store.present_le_same), fun v hv => ?_⟩
    obtain ⟨w, -, hw⟩ := exists_of_forall₂ h hv
    exact (linked_present.mp hw).2
  · rintro ⟨rfl, h⟩
    exact List.forall₂_same.mpr fun v hv => linked_present.mpr ⟨rfl, h v hv⟩

theorem Members.linked_present {m n : Members} :
    m.Linked s.present n ↔ m = n ∧ ∀ c ∈ m.cells, s.Has c := by
  constructor
  · intro h
    refine ⟨linked_equal.mp (h.mono Store.present_le_same), fun c hc => ?_⟩
    obtain ⟨d, hd⟩ := h.exists_pair hc
    exact hd.has
  · rintro ⟨rfl, h⟩
    exact linked_self fun c hc => (h c hc).pairs

end Present

/-! ## Intact stores -/

/-- A well-formed store that has all cells that it refers to and whose frames are younger than their
    parents. -/
structure Store.Intact (s : Store) : Prop extends Store.WellFormed s where
  older : ∀ (id parent : Nat) (f : Frame), s.frames[id]? = some f → f.parent = some parent →
    parent < id
  closed : s.Closed s.Has

/-- What is there stays there, and a cell that is new or has changed refers to what is there. -/
theorem Store.Closed.of_grows {s s' : Store} (h : s.Closed s.Has) (hgrows : s.Grows s')
    (hcells : ∀ c content, s'.cell? c = some content →
      s.cell? c = some content ∨ ∀ d ∈ content.cells, s'.Has d) : s'.Closed s'.Has := by
  intro c content _ hc d hd
  rcases hcells c content hc with hold | hnew
  · exact hgrows.has (h c content (has_of_cell? hold) hold d hd)
  · exact hnew d hd

theorem cell_push {α β : Type} {xs : Array α} {x : α} {f : α → β} {id : Nat} {b : β}
    (h : (xs.push x)[id]?.map f = some b) : xs[id]?.map f = some b ∨ b = f x := by
  rw [Array.getElem?_push] at h
  split at h
  · cases h
    exact .inr rfl
  · exact .inl h

theorem cell_modify {α β : Type} {xs : Array α} {g : α → α} {f : α → β} {a id : Nat} {b : β}
    (h : (xs.modify a g)[id]?.map f = some b) :
    xs[id]?.map f = some b ∨ ∃ x, xs[id]? = some x ∧ b = f (g x) := by
  rw [Array.getElem?_modify] at h
  split at h
  · rw [Option.map_map, Option.map_eq_some_iff] at h
    obtain ⟨x, hx, rfl⟩ := h
    exact .inr ⟨x, hx, rfl⟩
  · exact .inl h

theorem Members.mem_cells_put {m : Members} {key : Text} {v : Value} {c : Cell}
    (h : c ∈ (m.put key v).cells) : c ∈ v.cell? ∨ c ∈ m.cells := by
  obtain ⟨⟨k, w⟩, hentry, hcell⟩ := List.mem_filterMap.mp h
  rcases mem_vals_put hentry with heq | hmem
  · cases heq
    exact .inl hcell
  · exact .inr (List.mem_filterMap.mpr ⟨(k, w), hmem, hcell⟩)

namespace Store.Intact

variable {s : Store}

theorem empty : Store.empty.Intact where
  toWellFormed := .empty
  older := fun _ _ _ hf => by cases hf
  closed := fun c _ hc => absurd (by cases c <;> rfl) hc

variable (h : s.Intact)
include h

theorem newArray {elems : Array Value} (helems : ∀ v ∈ elems.toList, v.In s) :
    (s.newArray elems).2.Intact where
  toWellFormed := h.toWellFormed.newArray fun v hv => (helems v hv).within
  older := h.older
  closed := by
    have hgrows := (Store.Grows.lasting s).newArray (.refl s) elems
    refine h.closed.of_grows hgrows fun c content hc => ?_
    cases c with
    | array id =>
      refine (cell_push hc).imp_right ?_
      rintro rfl d hd
      obtain ⟨v, hv, hcell⟩ := List.mem_filterMap.mp hd
      exact hgrows.has (helems v hv d hcell)
    | _ => exact .inl hc

theorem newObject {m : Members} (hm : ∀ c ∈ m.cells, s.Has c) (hkeys : m.WellFormed) :
    (s.newObject m).2.Intact where
  toWellFormed := by
    refine h.toWellFormed.newObject (Content.within_object.mp fun id hid => ?_) hkeys
    exact has_frame.mp (hm _ hid)
  older := h.older
  closed := by
    have hgrows := (Store.Grows.lasting s).newObject (.refl s) m
    refine h.closed.of_grows hgrows fun c content hc => ?_
    cases c with
    | object id =>
      refine (cell_push hc).imp_right ?_
      rintro rfl d hd
      exact hgrows.has (hm d hd)
    | _ => exact .inl hc

theorem newFunction {f : Function} (hf : ∀ c ∈ (Content.function f).cells, s.Has c) :
    (s.newFunction f).2.Intact where
  toWellFormed := h.toWellFormed.newFunction fun _ hid => has_frame.mp (hf _ hid)
  older := h.older
  closed := by
    have hgrows := Store.Grows.newFunction (.refl s) f
    refine h.closed.of_grows hgrows fun c content hc => ?_
    cases c with
    | function id =>
      refine (cell_push hc).imp_right ?_
      rintro rfl d hd
      exact hgrows.has (hf d hd)
    | _ => exact .inl hc

theorem setElement (id index : Nat) {v : Value} (hv : v.In s) :
    (s.setElement id index v).Intact where
  toWellFormed := h.toWellFormed.setElement id index hv.within
  older := h.older
  closed := by
    have hgrows := (Store.Grows.lasting s).setElement (.refl s) id index v
    refine h.closed.of_grows hgrows fun c content hc => ?_
    cases c with
    | array a =>
      refine (cell_modify hc).imp_right ?_
      rintro ⟨elems, helems, rfl⟩ d hd
      have hcell : s.cell? (.array a) = some (.array elems) :=
        congrArg (Option.map Content.array) helems
      obtain ⟨w, hw, hcellw⟩ := List.mem_filterMap.mp hd
      have hold : w = v ∨ w ∈ elems.toList := by
        split at hw
        · rw [Array.toList_setIfInBounds] at hw
          exact (List.mem_or_eq_of_mem_set hw).symm
        · rw [Array.toList_push, List.mem_append, List.mem_singleton] at hw
          exact hw.symm
      apply hgrows.has
      rcases hold with rfl | hmem
      · exact hv d hcellw
      · exact h.closed _ _ (has_of_cell? hcell) hcell d (List.mem_filterMap.mpr ⟨w, hmem, hcellw⟩)
    | _ => exact .inl hc

theorem setMember (id : Nat) (key : Text) {v : Value} (hv : v.In s) :
    (s.setMember id key v).Intact where
  toWellFormed := h.toWellFormed.setMember id key hv.within
  older := h.older
  closed := by
    have hgrows := (Store.Grows.lasting s).setMember (.refl s) id key v
    refine h.closed.of_grows hgrows fun c content hc => ?_
    cases c with
    | object a =>
      refine (cell_modify hc).imp_right ?_
      rintro ⟨m, hm, rfl⟩ d hd
      have hcell : s.cell? (.object a) = some (.object m) := congrArg (Option.map Content.object) hm
      apply hgrows.has
      rcases Members.mem_cells_put hd with hd | hd
      · exact hv d hd
      · exact h.closed _ _ (has_of_cell? hcell) hcell d hd
    | _ => exact .inl hc

theorem bind (id : Nat) (key : Text) {v : Value} (hv : v.In s) : (s.bind id key v).Intact where
  toWellFormed := h.toWellFormed.bind id key hv.within
  older := by
    intro a parent f hf hparent
    simp only [Store.bind, Array.getElem?_modify] at hf
    split at hf
    · obtain ⟨g, hg, rfl⟩ := Option.map_eq_some_iff.mp hf
      exact h.older a parent g hg hparent
    · exact h.older a parent f hf hparent
  closed := by
    have hgrows := (Store.Grows.lasting s).bind (.refl s) id key v
    refine h.closed.of_grows hgrows fun c content hc => ?_
    cases c with
    | frame a =>
      refine (cell_modify hc).imp_right ?_
      rintro ⟨f, hf, rfl⟩ d hd
      have hcell : s.cell? (.frame a) = some (.frame f) := congrArg (Option.map Content.frame) hf
      have hold := h.closed _ _ (has_of_cell? hcell) hcell
      apply hgrows.has
      rcases List.mem_append.mp hd with hd | hd
      · exact hold d (List.mem_append_left _ hd)
      · rcases Members.mem_cells_put hd with hd | hd
        · exact hv d hd
        · exact hold d (List.mem_append_right _ hd)
    | _ => exact .inl hc

/-- Adding a frame without names under a parent that is there. -/
theorem newFrame {parent : Nat} (hparent : s.Has (.frame parent)) :
    (s.newFrame parent).2.Intact where
  toWellFormed := h.toWellFormed.newFrame (has_frame.mp hparent)
  older := by
    intro a p f hf hp
    simp only [Store.newFrame, Array.getElem?_push] at hf
    split at hf
    · next heq =>
      cases hf
      cases hp
      rw [heq]
      exact has_frame.mp hparent
    · exact h.older a p f hf hp
  closed := by
    have hgrows := (Store.Grows.lasting s).newFrame (.refl s) parent
    refine h.closed.of_grows hgrows fun c content hc => ?_
    cases c with
    | frame a =>
      refine (cell_push hc).imp_right ?_
      rintro rfl d hd
      apply hgrows.has
      rcases List.mem_pair.mp hd with rfl | rfl
      · exact has_frame.mpr (h.root_lt (has_frame.mp hparent))
      · exact hparent
    | _ => exact .inl hc

/-- Adding a frame without names and without a parent. -/
theorem newRootFrame :
    { s with frames := s.frames.push ⟨none, s.frames.size, .empty⟩ : Store }.Intact where
  toWellFormed := h.toWellFormed.newRootFrame
  older := by
    intro a p f hf hp
    rw [Array.getElem?_push] at hf
    split at hf
    · cases hf
      cases hp
    · exact h.older a p f hf hp
  closed := by
    have hgrows : s.Grows { s with frames := s.frames.push ⟨none, s.frames.size, .empty⟩ } :=
      have hrefl := Store.Grows.refl s
      ⟨hrefl.frames.push _, hrefl.arrays, hrefl.objects, hrefl.functions⟩
    refine h.closed.of_grows hgrows fun c content hc => ?_
    cases c with
    | frame a =>
      refine (cell_push hc).imp_right ?_
      rintro rfl d hd
      obtain rfl := List.mem_singleton.mp hd
      exact has_frame.mpr (by simp)
    | _ => exact .inl hc

theorem bindFunctions (id : Nat) {functions : List (Text × Function)}
    (hfunctions : ∀ entry ∈ functions, (Content.function entry.2).cells = []) :
    (s.bindFunctions id functions).Intact := by
  induction functions generalizing s with
  | nil => exact h
  | cons entry functions ih =>
    obtain ⟨hentry, hrest⟩ := List.forall_mem_cons.mp hfunctions
    have hnew : (s.newFunction entry.2).2.Intact := by
      apply h.newFunction
      rw [hentry]
      exact List.forall_mem_nil _
    refine ih (hnew.bind id entry.1 fun c hc => ?_) hrest
    cases hc
    exact has_function.mpr (by simp [Store.newFunction])

/-- Adding a root frame with the built-in functions. -/
theorem newRoot : s.newRoot.2.Intact := by
  have hbuiltins : ∀ entry ∈ Function.builtins, (Content.function entry.2).cells = [] := by
    decide
  exact h.newRootFrame.bindFunctions s.frames.size hbuiltins

/-! ## What is read from intact stores -/

/-- What a cell refers to is there. -/
theorem cells_in {c : Cell} {content : Content} (hc : s.cell? c = some content) :
    ∀ d ∈ content.cells, s.Has d :=
  h.closed c content (has_of_cell? hc) hc

theorem elements_in (id : Nat) : ∀ v ∈ (s.elements id).toList, v.In s := by
  simp only [Store.elements, Array.getD_eq_getD_getElem?]
  cases helems : s.arrays[id]? with
  | none => exact List.forall_mem_nil _
  | some elems =>
    have hcell : s.cell? (.array id) = some (.array elems) :=
      congrArg (Option.map Content.array) helems
    exact fun v hv c hc => h.cells_in hcell c (List.mem_filterMap.mpr ⟨v, hv, hc⟩)

theorem members_in (id : Nat) : ∀ c ∈ (s.members id).cells, s.Has c := by
  simp only [Store.members, Array.getD_eq_getD_getElem?]
  cases hm : s.objects[id]? with
  | none => exact List.forall_mem_nil _
  | some m =>
    have hcell : s.cell? (.object id) = some (.object m) := congrArg (Option.map Content.object) hm
    exact h.cells_in hcell

theorem bindings_in (id : Nat) : ∀ c ∈ (s.bindings id).cells, s.Has c := by
  simp only [Store.bindings]
  cases hf : s.frames[id]? with
  | none => exact List.forall_mem_nil _
  | some f =>
    have hcell : s.cell? (.frame id) = some (.frame f) := congrArg (Option.map Content.frame) hf
    exact fun c hc => h.cells_in hcell c (List.mem_append_right _ hc)

end Store.Intact

/-! ## Runs on intact stores -/

namespace StoreRel

/-- An intact store beside itself. -/
def intact : StoreRel where
  rel := fun s t => s = t ∧ s.Intact
  links := fun s _ => s.present

theorem intact_reads : intact.Reads (fun _ => True) where
  elements := by
    rintro s _ a _ ⟨rfl, h⟩ ⟨rfl, -⟩
    exact Value.allLinked_present.mpr ⟨rfl, h.elements_in a⟩
  members := by
    rintro s _ a _ ⟨rfl, h⟩ ⟨rfl, -⟩
    exact Members.linked_present.mpr ⟨rfl, h.members_in a⟩
  bindings := by
    rintro s _ a _ ⟨rfl, h⟩ ⟨rfl, -⟩
    exact Members.linked_present.mpr ⟨rfl, h.bindings_in a⟩
  owner := by
    rintro s _ a _ ⟨rfl, h⟩ ⟨rfl, -⟩ key
    cases howner : s.owner? key a with
    | none => exact .none
    | some owner => exact .some ⟨rfl, Store.lt_of_owner? howner⟩
  root := by
    rintro s _ a _ ⟨rfl, h⟩ ⟨rfl, ha⟩
    exact ⟨rfl, h.root_lt ha⟩
  root_eq := by
    rintro s _ a _ ⟨rfl, h⟩ ⟨rfl, -⟩
    rfl
  function := by
    rintro s _ a _ ⟨rfl, h⟩ ⟨rfl, -⟩
    cases hf : s.functions[a]? with
    | none => exact .none
    | some f =>
      have hcell : s.cell? (.function a) = some (.function f) :=
        congrArg (Option.map Content.function) hf
      have hself := Content.linked_self (fun _ _ => trivial) fun c hc =>
        (h.cells_in hcell c hc).pairs
      cases hself with | function hlinked => exact .some ⟨hlinked, trivial⟩
  text := by
    rintro s _ v w ⟨rfl, h⟩ hv
    obtain ⟨rfl, -⟩ := Value.linked_present.mp hv
    rfl
  equal := by
    rintro s _ v w v' w' ⟨rfl, h⟩ hv hv'
    obtain ⟨rfl, -⟩ := Value.linked_present.mp hv
    obtain ⟨rfl, -⟩ := Value.linked_present.mp hv'
    rfl

/-- A change of an intact store that keeps it so and loses no cells. -/
theorem intact_keeps {s s' : Store} (h : s'.Intact) (hgrows : s.Grows s') :
    intact.Keeps s s s' s' :=
  ⟨⟨rfl, h⟩, hgrows.present_le⟩

theorem intact_writes : intact.Writes where
  newArray := by
    rintro s _ xs ys ⟨rfl, h⟩ hxs
    obtain ⟨heq, hin⟩ := Value.allLinked_present.mp hxs
    obtain rfl : xs = ys := Array.toList_inj.mp heq
    have hgrows := (Store.Grows.lasting s).newArray (.refl s) xs
    exact ⟨intact_keeps (h.newArray hin) hgrows, .array ⟨rfl, by simp [Store.newArray]⟩⟩
  newObject := by
    rintro s _ xs ys ⟨rfl, h⟩ hxs hkeys
    obtain ⟨rfl, hin⟩ := Members.linked_present.mp hxs
    have hgrows := (Store.Grows.lasting s).newObject (.refl s) xs
    exact ⟨intact_keeps (h.newObject hin hkeys) hgrows, .object ⟨rfl, by simp [Store.newObject]⟩⟩
  newClosure := by
    rintro s _ a _ ⟨rfl, h⟩ ⟨rfl, ha⟩ arity body _
    have hgrows := Store.Grows.newFunction (.refl s) (.closure arity body a)
    refine ⟨intact_keeps (h.newFunction ?_) hgrows, .function ⟨rfl, by simp [Store.newFunction]⟩⟩
    exact List.forall_mem_singleton.mpr (Store.has_frame.mpr ha)
  newFrame := by
    rintro s _ a _ ⟨rfl, h⟩ ⟨rfl, ha⟩
    have hgrows := (Store.Grows.lasting s).newFrame (.refl s) a
    exact ⟨intact_keeps (h.newFrame (Store.has_frame.mpr ha)) hgrows, rfl, by simp [Store.newFrame]⟩
  bind := by
    rintro s _ a _ v w ⟨rfl, h⟩ ⟨rfl, -⟩ hv key
    obtain ⟨rfl, hin⟩ := Value.linked_present.mp hv
    exact intact_keeps (h.bind a key hin) ((Store.Grows.lasting s).bind (.refl s) a key v)
  setElement := by
    rintro s _ a _ v w ⟨rfl, h⟩ ⟨rfl, -⟩ hv index
    obtain ⟨rfl, hin⟩ := Value.linked_present.mp hv
    exact intact_keeps (h.setElement a index hin)
      ((Store.Grows.lasting s).setElement (.refl s) a index v)
  setMember := by
    rintro s _ a _ v w ⟨rfl, h⟩ ⟨rfl, -⟩ hv key
    obtain ⟨rfl, hin⟩ := Value.linked_present.mp hv
    exact intact_keeps (h.setMember a key hin)
      ((Store.Grows.lasting s).setMember (.refl s) a key v)

end StoreRel

/-- A machine with an intact store that has met literals of scalar values only. -/
structure Machine.Intact (m : Machine) : Prop where
  store : m.store.Intact
  literals : Literal.AllScalar m.literals

namespace Simulation

/-- A run on an intact store beside itself, from `depth` open calls on. -/
def intact (depth : Nat) : Simulation :=
  inStep StoreRel.intact_reads StoreRel.intact_writes (fun _ _ _ _ => trivial) depth True

theorem intact_start {m : Machine} (h : m.Intact) : (intact m.depth).Machines 0 m m :=
  ⟨⟨rfl, h.store⟩, rfl, rfl, rfl, ⟨rfl, h.literals⟩, ⟨rfl, rfl⟩⟩

theorem Machines.intact {depth k : Nat} {m n : Machine}
    (h : (Simulation.intact depth).Machines k m n) : m.Intact :=
  ⟨h.store.2, h.literals.2⟩

/-- The steps of evaluation keep stores intact and have results whose cells are there. -/
theorem intact_interps (engine : Engine) (fuel depth : Nat) :
    (intact depth).Interps 0 (fun _ => True) (fun _ => engine.interp fuel)
      (fun _ => engine.interp fuel) := by
  rw [← monitorPlain_interp engine fuel 0]
  exact (inStep_monitors engine).interpsUnder (.inl ⟨trivial, rfl⟩)

/-- What a run beside itself that ends with a result comes to. -/
theorem EndAlike.intact {α : Type} {A : Links → α → α → Prop} {depth k : Nat} {L : Links} {a : α}
    {m : Machine} {os : Nat → Outcome α}
    (h : (Simulation.intact depth).EndAlike k L A (fun _ => .done a m) os) :
    m.Intact ∧ L ≤ m.store.present ∧ ∃ b, A m.store.present a b := by
  obtain ⟨b, n, -, hm, hL, hab⟩ := h.ends
  exact ⟨hm.intact, hL, b, hab⟩

end Simulation

namespace Machine.Intact

variable {m m' : Machine} {engine : Engine} {fuel scope : Nat}

/-- Evaluation keeps machines intact and comes to values whose cells are there. -/
theorem visit (hm : m.Intact) (hscope : m.store.Has (.frame scope)) {e : Expr} {v : Value}
    (h : (engine.interp fuel).visit scope e m = .done v m') :
    m'.Intact ∧ m.store.present ≤ m'.store.present ∧ v.In m'.store := by
  have hframe : m.store.present.frames scope scope := ⟨rfl, Store.has_frame.mp hscope⟩
  have hsim := (Simulation.intact_interps engine fuel m.depth).visit hframe (e := e)
    ⟨trivial, fun _ _ => trivial⟩
  have hend := hsim m m (Simulation.intact_start hm) le_rfl
  simp only [h] at hend
  obtain ⟨hm', hle, w, hv⟩ := hend.intact
  exact ⟨hm', hle, (Value.linked_present.mp hv).2⟩

/-- The slots of targets lie in cells that are there. -/
theorem resolve (hm : m.Intact) (hscope : m.store.Has (.frame scope)) {target : Target}
    {slot : Slot} (h : (engine.interp fuel).resolve scope target m = .done slot m') :
    m'.Intact ∧ m.store.present ≤ m'.store.present ∧ slot.Linked m'.store.present slot := by
  have hframe : m.store.present.frames scope scope := ⟨rfl, Store.has_frame.mp hscope⟩
  have hsim : (Simulation.intact m.depth).Sim 0 m.store.present Slot.Linked
      (fun _ => (engine.interp fuel).resolve scope target)
      (fun _ => (engine.interp fuel).resolve scope target) :=
    (Simulation.intact_interps engine fuel m.depth).resolve hframe fun _ _ =>
      ⟨trivial, fun _ _ => trivial⟩
  have hend := hsim m m (Simulation.intact_start hm) le_rfl
  simp only [h] at hend
  obtain ⟨hm', hle, slot', hslot⟩ := hend.intact
  obtain rfl := Slot.linked_equal.mp (hslot.mono Store.present_le_same)
  exact ⟨hm', hle, hslot⟩

end Machine.Intact

end ExprLang
