import ExprLang.HostData
import ExprLang.Proofs.Reachability
import ExprLang.Proofs.Simulation.Region

/-!
# Well-formed stores

In a well-formed store the list of keys of every object and the list of names of every frame has
each of them once and lists exactly those that have a value, and the parents of every frame make a
chain that ends at the frame's root. Programs keep stores well-formed, whether they succeed or fail,
and so does making scopes and values for the host (`Machine.wellFormed_kept`).
-/

namespace ExprLang

/-- The frames from one on along the parents, up to one without a parent. -/
inductive Frame.Chain (frames : Array Frame) : Nat → List Nat → Prop
  | last {id : Nat} {f : Frame} (hf : frames[id]? = some f) (hparent : f.parent = none) :
    Chain frames id [id]
  | link {id parent : Nat} {f : Frame} {chain : List Nat} (hf : frames[id]? = some f)
    (hparent : f.parent = some parent) (hchain : Chain frames parent chain) :
    Chain frames id (id :: chain)

/-- Contents that refer to none but the first frames of a store. -/
def Content.Within (size : Nat) (content : Content) : Prop :=
  ∀ id, .frame id ∈ content.cells → id < size

/-- A store whose cells refer to none but its first frames. -/
structure Store.Within (size : Nat) (s : Store) : Prop where
  frames : ∀ f ∈ s.frames, (Content.frame f).Within size
  arrays : ∀ elems ∈ s.arrays, (Content.array elems).Within size
  objects : ∀ m ∈ s.objects, (Content.object m).Within size
  functions : ∀ f ∈ s.functions, (Content.function f).Within size

/-- A store whose lists of keys and names agree with the values, whose frames lie on chains that end
    at their roots, and that refers to none but its own frames. -/
structure Store.WellFormed (s : Store) : Prop where
  names : ∀ f ∈ s.frames, f.members.WellFormed
  keys : ∀ m ∈ s.objects, m.WellFormed
  chains : ∀ (id : Nat) (f : Frame), s.frames[id]? = some f →
    ∃ chain, Frame.Chain s.frames id chain ∧ chain.Nodup ∧ chain.getLast? = some f.root
  roots : ∀ (id : Nat) (f : Frame), s.frames[id]? = some f → (f.root = id ↔ f.parent = none)
  within : s.Within s.frames.size

/-! ## Values that refer to frames that are there -/

/-- Values that refer to none but the first frames of a store. -/
def Value.Within (size : Nat) (v : Value) : Prop := ∀ id, v = .scope id → id < size

/-- Links of the first frames of a store to themselves, and of all other cells to themselves. -/
def Links.below (size : Nat) : Links where
  frames := fun a b => a = b ∧ a < size
  arrays := Eq
  objects := Eq
  functions := Eq

section Below

variable {size : Nat}

theorem Links.below_le_same : Links.below size ≤ .same := ⟨And.left, id, id, id, id⟩

theorem Links.below_mono {size' : Nat} (h : size ≤ size') : Links.below size ≤ .below size' :=
  ⟨fun hab => ⟨hab.1, hab.2.trans_le h⟩, id, id, id, id⟩

theorem Links.pairs_below {c : Cell} (h : ∀ id, c = .frame id → id < size) :
    (below size).Pairs c c := by
  cases c with
  | frame id => exact .frame ⟨rfl, h id rfl⟩
  | array id => exact .array (rfl : id = id)
  | object id => exact .object (rfl : id = id)
  | function id => exact .function (rfl : id = id)

theorem Value.mem_cell?_iff {v : Value} {id : Nat} : Cell.frame id ∈ v.cell? ↔ v = .scope id := by
  cases v <;> simp [cell?]

theorem Value.linked_below {v w : Value} : v.Linked (.below size) w ↔ v = w ∧ v.Within size := by
  constructor
  · intro h
    refine ⟨linked_equal.mp (h.mono Links.below_le_same), ?_⟩
    rintro id rfl
    cases h with | scope h => exact h.2
  · rintro ⟨rfl, h⟩
    refine linked_self fun c hc => Links.pairs_below ?_
    rintro id rfl
    exact h id (mem_cell?_iff.mp hc)

theorem Value.allLinked_below {vs ws : List Value} :
    AllLinked (.below size) vs ws ↔ vs = ws ∧ ∀ v ∈ vs, v.Within size := by
  constructor
  · intro h
    refine ⟨allLinked_equal.mp (h.mono Links.below_le_same), fun v hv => ?_⟩
    obtain ⟨i, hi, rfl⟩ := List.mem_iff_getElem.mp hv
    have hrel := rel_getElem? h i
    rw [List.getElem?_eq_getElem hi] at hrel
    rcases rel_cases hrel with ⟨hnone, -⟩ | ⟨a, b, ha, -, hab⟩
    · cases hnone
    · cases ha
      exact (linked_below.mp hab).2
  · rintro ⟨rfl, h⟩
    exact List.forall₂_same.mpr fun v hv => linked_below.mpr ⟨rfl, h v hv⟩

/-- Members with values that refer to none but the first frames of a store. -/
def Members.Within (size : Nat) (m : Members) : Prop :=
  ∀ key v, (key, v) ∈ m.vals → v.Within size

theorem Members.linked_below {m n : Members} :
    m.Linked (.below size) n ↔ m = n ∧ m.Within size := by
  constructor
  · intro h
    obtain rfl := linked_equal.mp (h.mono Links.below_le_same)
    refine ⟨rfl, fun key v hentry => ?_⟩
    exact (Value.linked_below.mp (List.forall₂_same.mp h.vals (key, v) hentry).2).2
  · rintro ⟨rfl, h⟩
    refine ⟨rfl, List.forall₂_same.mpr fun entry hentry => ⟨rfl, ?_⟩⟩
    exact Value.linked_below.mpr ⟨rfl, h entry.1 entry.2 hentry⟩

theorem Content.linked_below {content : Content} (h : content.Within size) :
    content.Linked (.below size) content := by
  refine Content.linked_self (fun _ _ => trivial) fun c hc => Links.pairs_below ?_
  rintro id rfl
  exact h id hc

/-! ## What contents refer to -/

theorem Content.within_array {elems : Array Value} :
    (array elems).Within size ↔ ∀ v ∈ elems.toList, v.Within size := by
  unfold Content.Within Content.cells
  simp only [List.mem_filterMap]
  constructor
  · rintro h v hv id rfl
    exact h id ⟨.scope id, hv, rfl⟩
  · rintro h id ⟨v, hv, hcell⟩
    exact h v hv id (Value.mem_cell?_iff.mp hcell)

theorem Members.mem_cells {m : Members} {id : Nat} :
    Cell.frame id ∈ m.cells ↔ ∃ key, (key, .scope id) ∈ m.vals := by
  unfold Members.cells
  rw [List.mem_filterMap]
  constructor
  · rintro ⟨⟨key, v⟩, hentry, hcell⟩
    cases Value.mem_cell?_iff.mp hcell
    exact ⟨key, hentry⟩
  · rintro ⟨key, hentry⟩
    exact ⟨(key, .scope id), hentry, rfl⟩

theorem Content.within_object {m : Members} : (object m).Within size ↔ m.Within size := by
  unfold Content.Within Content.cells Members.Within
  simp only [Members.mem_cells]
  constructor
  · rintro h key v hentry id rfl
    exact h id ⟨key, hentry⟩
  · rintro h id ⟨key, hentry⟩
    exact h key _ hentry id rfl

theorem Content.within_frame {f : Frame} :
    (frame f).Within size ↔
      f.root < size ∧ (∀ p ∈ f.parent, p < size) ∧ f.members.Within size := by
  have hmembers : (object f.members).Within size ↔ f.members.Within size := within_object
  unfold Content.Within Content.cells at hmembers ⊢
  rw [← hmembers]
  simp only [List.cons_append, List.mem_cons, List.mem_append, List.mem_map, Option.mem_toList,
    Cell.frame.injEq, exists_eq_right]
  constructor
  · intro h
    exact ⟨h _ (.inl rfl), fun p hp => h p (.inr (.inl hp)), fun id hid => h id (.inr (.inr hid))⟩
  · rintro ⟨hroot, hparent, hcells⟩ id (rfl | hid | hid)
    · exact hroot
    · exact hparent id hid
    · exact hcells id hid

theorem Content.within_closure {arity : Arity} {body : Expr} {scope : Nat} (h : scope < size) :
    (function (.closure arity body scope)).Within size := by
  rintro id hid
  cases List.mem_singleton.mp hid
  exact h

theorem Content.Within.mono {content : Content} {size' : Nat} (h : content.Within size)
    (hle : size ≤ size') : content.Within size' :=
  fun id hid => (h id hid).trans_le hle

theorem Value.Within.mono {v : Value} {size' : Nat} (h : v.Within size) (hle : size ≤ size') :
    v.Within size' :=
  fun id hid => (h id hid).trans_le hle

theorem Members.within_empty : Members.empty.Within size :=
  fun _ _ hentry => absurd hentry List.not_mem_nil

theorem Members.Within.put {m : Members} (h : m.Within size) (key : Text) {v : Value}
    (hv : v.Within size) : (m.put key v).Within size := by
  intro k w hentry
  rcases mem_vals_put hentry with heq | hmem
  · cases heq
    exact hv
  · exact h k w hmem

end Below

/-! ## Chains -/

namespace Frame.Chain

variable {frames frames' : Array Frame} {id : Nat} {chain : List Nat}

/-- A chain depends on the parents of frames only. -/
theorem of_parents (h : Chain frames id chain)
    (hparents : ∀ (id : Nat) (f : Frame), frames[id]? = some f →
      ∃ f', frames'[id]? = some f' ∧ f'.parent = f.parent) : Chain frames' id chain := by
  induction h with
  | last hf hparent =>
    obtain ⟨f', hf', hsame⟩ := hparents _ _ hf
    exact .last hf' (hsame.trans hparent)
  | link hf hparent _ ih =>
    obtain ⟨f', hf', hsame⟩ := hparents _ _ hf
    exact .link hf' (hsame.trans hparent) ih

theorem lt_size (h : Chain frames id chain) : ∀ a ∈ chain, a < frames.size := by
  induction h with
  | last hf _ =>
    intro a ha
    cases List.mem_singleton.mp ha
    exact (Array.getElem?_eq_some_iff.mp hf).1
  | link hf _ _ ih => exact List.forall_mem_cons.mpr ⟨(Array.getElem?_eq_some_iff.mp hf).1, ih⟩

theorem push (h : Chain frames id chain) (f : Frame) : Chain (frames.push f) id chain := by
  refine h.of_parents fun a g hg => ⟨g, ?_, rfl⟩
  have hlt := (Array.getElem?_eq_some_iff.mp hg).1
  rw [Array.getElem?_push, if_neg (Nat.ne_of_lt hlt), hg]

end Frame.Chain

/-! ## Operations on well-formed stores -/

theorem forall_mem_push {α : Type} {P : α → Prop} {xs : Array α} (h : ∀ x ∈ xs, P x) {y : α}
    (hy : P y) : ∀ x ∈ xs.push y, P x := by
  intro x hx
  rcases Array.mem_push.mp hx with hmem | rfl
  · exact h x hmem
  · exact hy

theorem forall_mem_modify {α : Type} {P : α → Prop} {xs : Array α} (h : ∀ x ∈ xs, P x)
    {f : α → α} (hf : ∀ x, P x → P (f x)) (a : Nat) : ∀ x ∈ xs.modify a f, P x := by
  intro x hx
  obtain ⟨i, hi⟩ := Array.mem_iff_getElem?.mp hx
  rw [Array.getElem?_modify] at hi
  split at hi
  · obtain ⟨y, hy, rfl⟩ := Option.map_eq_some_iff.mp hi
    exact hf y (h y (Array.mem_of_getElem? hy))
  · exact h x (Array.mem_of_getElem? hi)

namespace Store.WellFormed

theorem empty : Store.empty.WellFormed where
  names := nofun
  keys := nofun
  chains := nofun
  roots := nofun
  within := ⟨nofun, nofun, nofun, nofun⟩

variable {s : Store} (h : s.WellFormed)
include h

theorem newArray {elems : Array Value} (helems : ∀ v ∈ elems.toList, v.Within s.frames.size) :
    (s.newArray elems).2.WellFormed := by
  obtain ⟨hframes, harrays, hobjects, hfunctions⟩ := h.within
  refine ⟨h.names, h.keys, h.chains, h.roots, ⟨hframes, ?_, hobjects, hfunctions⟩⟩
  exact forall_mem_push harrays (Content.within_array.mpr helems)

theorem newObject {m : Members} (hm : m.Within s.frames.size) (hkeys : m.WellFormed) :
    (s.newObject m).2.WellFormed := by
  obtain ⟨hframes, harrays, hobjects, hfunctions⟩ := h.within
  refine ⟨h.names, ?_, h.chains, h.roots, ⟨hframes, harrays, ?_, hfunctions⟩⟩
  · exact forall_mem_push h.keys hkeys
  · exact forall_mem_push hobjects (Content.within_object.mpr hm)

theorem newFunction {f : Function} (hf : (Content.function f).Within s.frames.size) :
    (s.newFunction f).2.WellFormed := by
  obtain ⟨hframes, harrays, hobjects, hfunctions⟩ := h.within
  refine ⟨h.names, h.keys, h.chains, h.roots, ⟨hframes, harrays, hobjects, ?_⟩⟩
  exact forall_mem_push hfunctions hf

theorem setElement (id index : Nat) {v : Value} (hv : v.Within s.frames.size) :
    (s.setElement id index v).WellFormed := by
  obtain ⟨hframes, harrays, hobjects, hfunctions⟩ := h.within
  refine ⟨h.names, h.keys, h.chains, h.roots, ⟨hframes, ?_, hobjects, hfunctions⟩⟩
  simp only [Store.setElement]
  refine forall_mem_modify harrays (fun elems helems => ?_) id
  rw [Content.within_array] at helems ⊢
  split
  · rw [Array.toList_setIfInBounds]
    intro w hw
    rcases List.mem_or_eq_of_mem_set hw with hmem | rfl
    · exact helems w hmem
    · exact hv
  · rw [Array.toList_push]
    exact List.forall_mem_append.mpr ⟨helems, List.forall_mem_singleton.mpr hv⟩

theorem setMember (id : Nat) (key : Text) {v : Value} (hv : v.Within s.frames.size) :
    (s.setMember id key v).WellFormed := by
  obtain ⟨hframes, harrays, hobjects, hfunctions⟩ := h.within
  refine ⟨h.names, ?_, h.chains, h.roots, ⟨hframes, harrays, ?_, hfunctions⟩⟩
  · simp only [Store.setMember]
    exact forall_mem_modify h.keys (fun m hm => hm.put key v) id
  · simp only [Store.setMember]
    refine forall_mem_modify hobjects (fun m hm => ?_) id
    rw [Content.within_object] at hm ⊢
    exact hm.put key hv

/-- Binding a name leaves parents and roots alone. -/
theorem bind (id : Nat) (key : Text) {v : Value} (hv : v.Within s.frames.size) :
    (s.bind id key v).WellFormed := by
  obtain ⟨hframes, harrays, hobjects, hfunctions⟩ := h.within
  have hsize : (s.bind id key v).frames.size = s.frames.size := by
    simp only [Store.bind, Array.size_modify]
  -- a frame after the writing has the parent and the root that it had before
  have hback {a : Nat} {f : Frame} (hf : (s.bind id key v).frames[a]? = some f) :
      ∃ g, s.frames[a]? = some g ∧ f.parent = g.parent ∧ f.root = g.root := by
    simp only [Store.bind, Array.getElem?_modify] at hf
    split at hf
    · obtain ⟨g, hg, rfl⟩ := Option.map_eq_some_iff.mp hf
      exact ⟨g, hg, rfl, rfl⟩
    · exact ⟨f, hf, rfl, rfl⟩
  have hforth (a : Nat) (g : Frame) (hg : s.frames[a]? = some g) :
      ∃ f, (s.bind id key v).frames[a]? = some f ∧ f.parent = g.parent := by
    simp only [Store.bind, Array.getElem?_modify, hg]
    split
    · exact ⟨_, rfl, rfl⟩
    · exact ⟨g, rfl, rfl⟩
  refine ⟨?_, h.keys, ?_, ?_, ?_⟩
  · simp only [Store.bind]
    exact forall_mem_modify h.names (fun f hf => hf.put key v) id
  · intro a f hf
    obtain ⟨g, hg, -, hroot⟩ := hback hf
    obtain ⟨chain, hchain, hnodup, hlast⟩ := h.chains a g hg
    exact ⟨chain, hchain.of_parents hforth, hnodup, hroot ▸ hlast⟩
  · intro a f hf
    obtain ⟨g, hg, hparent, hroot⟩ := hback hf
    rw [hparent, hroot]
    exact h.roots a g hg
  · rw [hsize]
    refine ⟨?_, harrays, hobjects, hfunctions⟩
    simp only [Store.bind]
    refine forall_mem_modify hframes (fun f hf => ?_) id
    rw [Content.within_frame] at hf ⊢
    exact ⟨hf.1, hf.2.1, hf.2.2.put key hv⟩

/-- Adding a frame without names keeps a store well-formed if the frame's chain is as it should
    be. -/
theorem pushFrame {f : Frame} (hmembers : f.members = .empty)
    (hchain : ∃ chain, Frame.Chain (s.frames.push f) s.frames.size chain ∧ chain.Nodup ∧
      chain.getLast? = some f.root)
    (hroot : f.root = s.frames.size ↔ f.parent = none)
    (hwithin : f.root ≤ s.frames.size ∧ ∀ p ∈ f.parent, p < s.frames.size) :
    { s with frames := s.frames.push f : Store }.WellFormed := by
  have hle : s.frames.size ≤ (s.frames.push f).size := by
    rw [Array.size_push]
    exact Nat.le_succ _
  have hframe {P : Nat → Frame → Prop} (hold : ∀ a g, s.frames[a]? = some g → P a g)
      (hnew : P s.frames.size f) (a : Nat) (g : Frame) (hg : (s.frames.push f)[a]? = some g) :
      P a g := by
    rw [Array.getElem?_push] at hg
    split at hg
    · next heq =>
      cases hg
      exact heq ▸ hnew
    · exact hold a g hg
  refine ⟨?_, h.keys, ?_, ?_, ?_⟩
  · refine forall_mem_push h.names ?_
    rw [hmembers]
    exact .empty
  · refine hframe (fun a g hg => ?_) hchain
    obtain ⟨chain, hold, hrest⟩ := h.chains a g hg
    exact ⟨chain, hold.push f, hrest⟩
  · exact hframe h.roots hroot
  · refine ⟨forall_mem_push (fun g hg => (h.within.frames g hg).mono hle) ?_,
      fun x hx => (h.within.arrays x hx).mono hle, fun x hx => (h.within.objects x hx).mono hle,
      fun x hx => (h.within.functions x hx).mono hle⟩
    rw [Content.within_frame, Array.size_push, hmembers]
    exact ⟨Nat.lt_succ_of_le hwithin.1, fun p hp => Nat.lt_succ_of_lt (hwithin.2 p hp), nofun⟩

theorem newFrame {parent : Nat} (hparent : parent < s.frames.size) :
    (s.newFrame parent).2.WellFormed := by
  obtain ⟨f, hf⟩ : ∃ f, s.frames[parent]? = some f := ⟨_, Array.getElem?_eq_getElem hparent⟩
  have hroot : s.root parent = f.root := by simp only [Store.root, hf]
  obtain ⟨chain, hchain, hnodup, hlast⟩ := h.chains parent f hf
  have hlt : f.root < s.frames.size := hchain.lt_size _ (List.mem_of_getLast? hlast)
  refine h.pushFrame rfl ⟨s.frames.size :: chain, ?_, ?_, ?_⟩ ?_ ?_
  · exact .link Array.getElem?_push_size rfl (hchain.push _)
  · refine List.nodup_cons.mpr ⟨fun hmem => ?_, hnodup⟩
    exact Nat.lt_irrefl _ (hchain.lt_size _ hmem)
  · rw [List.getLast?_cons, hlast, hroot]
    rfl
  · simp only [hroot, reduceCtorEq, iff_false]
    exact Nat.ne_of_lt hlt
  · rw [hroot]
    refine ⟨Nat.le_of_lt hlt, ?_⟩
    rintro _ ⟨rfl⟩
    exact hparent

theorem newRootFrame :
    { s with frames := s.frames.push ⟨none, s.frames.size, .empty⟩ : Store }.WellFormed := by
  refine h.pushFrame rfl ⟨[s.frames.size], ?_, by simp, rfl⟩ (by simp) ⟨le_rfl, nofun⟩
  exact .last Array.getElem?_push_size rfl

/-! ## What is read from well-formed stores -/

theorem elements_within (id : Nat) : ∀ v ∈ (s.elements id).toList, v.Within s.frames.size := by
  simp only [Store.elements, Array.getD_eq_getD_getElem?]
  cases helems : s.arrays[id]? with
  | none => exact List.forall_mem_nil _
  | some elems =>
    exact Content.within_array.mp (h.within.arrays elems (Array.mem_of_getElem? helems))

theorem members_within (id : Nat) : (s.members id).Within s.frames.size := by
  simp only [Store.members, Array.getD_eq_getD_getElem?]
  cases hm : s.objects[id]? with
  | none => exact Members.within_empty
  | some m => exact Content.within_object.mp (h.within.objects m (Array.mem_of_getElem? hm))

theorem frame_within {id : Nat} {f : Frame} (hf : s.frames[id]? = some f) :
    f.root < s.frames.size ∧ (∀ p ∈ f.parent, p < s.frames.size) ∧
      f.members.Within s.frames.size :=
  Content.within_frame.mp (h.within.frames f (Array.mem_of_getElem? hf))

theorem bindings_within (id : Nat) : (s.bindings id).Within s.frames.size := by
  simp only [Store.bindings]
  cases hf : s.frames[id]? with
  | none => exact Members.within_empty
  | some f => exact (h.frame_within hf).2.2

theorem root_lt {id : Nat} (hid : id < s.frames.size) : s.root id < s.frames.size := by
  simp only [Store.root, Array.getElem?_eq_getElem hid]
  exact (h.frame_within (Array.getElem?_eq_getElem hid)).1

end Store.WellFormed

theorem Store.lt_of_owner? {s : Store} {key : Text} {id owner : Nat}
    (h : s.owner? key id = some owner) : owner < s.frames.size := by
  fun_induction s.owner? key id with
  | case1 id hf => cases h
  | case2 id f hf hhas =>
    cases h
    exact (Array.getElem?_eq_some_iff.mp hf).1
  | case3 id f hf hhas hparent => cases h
  | case4 id f hf hhas parent hparent hlt ih => exact ih h
  | case5 id f hf hhas parent hparent hlt => cases h

/-! ## Runs on well-formed stores -/

namespace StoreRel

/-- A well-formed store beside itself. -/
def wellFormed : StoreRel where
  rel := fun s t => s = t ∧ s.WellFormed
  links := fun s _ => .below s.frames.size

theorem wellFormed_reads : wellFormed.Reads (fun _ => True) where
  elements := by
    rintro s _ a _ ⟨rfl, h⟩ rfl
    exact Value.allLinked_below.mpr ⟨rfl, h.elements_within a⟩
  members := by
    rintro s _ a _ ⟨rfl, h⟩ rfl
    exact Members.linked_below.mpr ⟨rfl, h.members_within a⟩
  bindings := by
    rintro s _ a _ ⟨rfl, h⟩ ⟨rfl, ha⟩
    exact Members.linked_below.mpr ⟨rfl, h.bindings_within a⟩
  owner := by
    rintro s _ a _ ⟨rfl, h⟩ ⟨rfl, ha⟩ key
    cases howner : s.owner? key a with
    | none => exact .none
    | some owner => exact .some ⟨rfl, Store.lt_of_owner? howner⟩
  root := by
    rintro s _ a _ ⟨rfl, h⟩ ⟨rfl, ha⟩
    exact ⟨rfl, h.root_lt ha⟩
  root_eq := by
    rintro s _ a _ ⟨rfl, h⟩ ⟨rfl, ha⟩
    rfl
  function := by
    rintro s _ a _ ⟨rfl, h⟩ rfl
    cases hf : s.functions[a]? with
    | none => exact .none
    | some f =>
      have hwithin := h.within.functions f (Array.mem_of_getElem? hf)
      cases Content.linked_below hwithin with | function hlinked => exact .some ⟨hlinked, trivial⟩
  text := by
    rintro s _ v w ⟨rfl, h⟩ hv
    obtain ⟨rfl, -⟩ := Value.linked_below.mp hv
    rfl
  equal := by
    rintro s _ v w v' w' ⟨rfl, h⟩ hv hv'
    obtain ⟨rfl, -⟩ := Value.linked_below.mp hv
    obtain ⟨rfl, -⟩ := Value.linked_below.mp hv'
    rfl

/-- A change of a well-formed store that keeps it so and does not lose frames. -/
theorem wellFormed_keeps {s s' : Store} (h : s'.WellFormed)
    (hsize : s.frames.size ≤ s'.frames.size) : wellFormed.Keeps s s s' s' :=
  ⟨⟨rfl, h⟩, Links.below_mono hsize⟩

theorem wellFormed_writes : wellFormed.Writes where
  newArray := by
    rintro s _ xs ys ⟨rfl, h⟩ hxs
    obtain ⟨heq, hwithin⟩ := Value.allLinked_below.mp hxs
    obtain rfl : xs = ys := Array.toList_inj.mp heq
    exact ⟨wellFormed_keeps (h.newArray hwithin) le_rfl, .array rfl⟩
  newObject := by
    rintro s _ xs ys ⟨rfl, h⟩ hxs hkeys
    obtain ⟨rfl, hwithin⟩ := Members.linked_below.mp hxs
    exact ⟨wellFormed_keeps (h.newObject hwithin hkeys) le_rfl, .object rfl⟩
  newClosure := by
    rintro s _ a _ ⟨rfl, h⟩ ⟨rfl, ha⟩ arity body _
    exact ⟨wellFormed_keeps (h.newFunction (Content.within_closure ha)) le_rfl, .function rfl⟩
  newFrame := by
    rintro s _ a _ ⟨rfl, h⟩ ⟨rfl, ha⟩
    have hsize : (s.newFrame a).2.frames.size = s.frames.size + 1 := Array.size_push _
    refine ⟨wellFormed_keeps (h.newFrame ha) (by rw [hsize]; exact Nat.le_succ _), rfl, ?_⟩
    rw [hsize]
    exact Nat.lt_succ_self _
  bind := by
    rintro s _ a _ v w ⟨rfl, h⟩ ⟨rfl, ha⟩ hv key
    obtain ⟨rfl, hwithin⟩ := Value.linked_below.mp hv
    refine wellFormed_keeps (h.bind a key hwithin) ?_
    simp only [Store.bind, Array.size_modify, le_refl]
  setElement := by
    rintro s _ a _ v w ⟨rfl, h⟩ rfl hv index
    obtain ⟨rfl, hwithin⟩ := Value.linked_below.mp hv
    exact wellFormed_keeps (h.setElement a index hwithin) le_rfl
  setMember := by
    rintro s _ a _ v w ⟨rfl, h⟩ rfl hv key
    obtain ⟨rfl, hwithin⟩ := Value.linked_below.mp hv
    exact wellFormed_keeps (h.setMember a key hwithin) le_rfl

end StoreRel

/-- A machine with a well-formed store that has met literals of scalar values only. -/
structure Machine.WellFormed (m : Machine) : Prop where
  store : m.store.WellFormed
  literals : Literal.AllScalar m.literals

namespace Simulation

/-- A run on a well-formed store beside itself, from `depth` open calls on. -/
def wellFormed (depth : Nat) : Simulation :=
  inStep StoreRel.wellFormed_reads StoreRel.wellFormed_writes (fun _ _ _ _ => trivial) depth True

/-- The machine at the end of a run beside itself is well-formed. -/
theorem EndAlike.wellFormed {depth k : Nat} {L : Links} {o : Outcome Value}
    {os : Nat → Outcome Value}
    (h : (wellFormed depth).EndAlike k L Value.Linked (fun _ => o) os) :
    ∀ m ∈ o.machine?, m.WellFormed := by
  have hmachine {m n : Machine} (hm : (Simulation.wellFormed depth).Machines k m n) :
      m.WellFormed := ⟨hm.store.2, hm.literals.2⟩
  have hends := h.ends
  cases o with
  | done v m =>
    obtain ⟨w, n, -, hm, -⟩ := hends
    rintro _ ⟨rfl⟩
    exact hmachine hm
  | failed f m =>
    obtain hlost | ⟨n, -, hm, -⟩ := hends
    · exact hlost.elim
    · rintro _ ⟨rfl⟩
      exact hmachine hm
  | outOfFuel => exact nofun

end Simulation

/-- Programs keep machines well-formed, whether they succeed or fail. -/
theorem Engine.evaluate_wellFormed (engine : Engine) (fuel : Nat) (program : Program) {scope : Nat}
    {m : Machine} (hm : m.WellFormed) (hscope : scope < m.store.frames.size) :
    ∀ m' ∈ (engine.evaluate fuel program scope m).machine?, m'.WellFormed := by
  have hlinked : (Links.below m.store.frames.size).frames scope scope := ⟨rfl, hscope⟩
  have hsim : (Simulation.wellFormed m.depth).Sim 0 (.below m.store.frames.size) Value.Linked
      (fun _ => engine.evaluate fuel program scope)
      (fun _ => engine.evaluate fuel program scope) := by
    refine Simulation.Sim.evaluate hlinked rfl fun root => ?_
    rw [← Eval.visitUnder_plain engine fuel 0]
    exact (Simulation.inStep_monitors engine).visitUnder rfl rfl (.inl ⟨trivial, rfl⟩) hlinked root
      fun _ _ => trivial
  have hstart : (Simulation.wellFormed m.depth).Machines 0 m m :=
    ⟨⟨rfl, hm.store⟩, rfl, rfl, rfl, ⟨rfl, hm.literals⟩, ⟨rfl, rfl⟩⟩
  exact (hsim m m hstart le_rfl).wellFormed

/-! ## Data from the host -/

/-- A construction that keeps stores with so many frames well-formed, adds no frames and has good
    results. -/
def Build.Sound {α : Type} (size : Nat) (good : α → Prop) (x : Build α) : Prop :=
  ∀ s a s', s.WellFormed → s.frames.size = size → x s = .ok (a, s') →
    s'.WellFormed ∧ s'.frames.size = size ∧ good a

namespace Build.Sound

variable {α β : Type} {size : Nat} {good : α → Prop} {good' : β → Prop} {x : Build α}

theorem pure {a : α} (h : good a) : Build.Sound size good (pure a : Build α) := by
  rintro s _ s' hs hsize ⟨⟩
  exact ⟨hs, hsize, h⟩

theorem bind {f : α → Build β} (hx : Build.Sound size good x)
    (hf : ∀ a, good a → Build.Sound size good' (f a)) : Build.Sound size good' (x >>= f) := by
  intro s b s' hs hsize h
  change Build.andThen x f s = .ok (b, s') at h
  unfold Build.andThen at h
  split at h
  · next a s₁ hxs =>
    obtain ⟨hs₁, hsize₁, ha⟩ := hx s a s₁ hs hsize hxs
    exact hf a ha s₁ b s' hs₁ hsize₁ h
  · cases h

theorem of {f : Store → α × Store} (h : ∀ s, s.WellFormed → s.frames.size = size →
    (f s).2.WellFormed ∧ (f s).2.frames.size = size ∧ good (f s).1) :
    Build.Sound size good (Build.of f) := by
  intro s a s' hs hsize heq
  have hfs : f s = (a, s') := Except.ok.inj heq
  have hkept := h s hs hsize
  rw [hfs] at hkept
  exact hkept

theorem sequence {entries : List (Text × Build Value)}
    (h : ∀ entry ∈ entries, entry.2.Sound size (Value.Within size)) :
    (Build.sequence entries).Sound size fun vs => ∀ entry ∈ vs, entry.2.Within size := by
  induction entries with
  | nil => exact pure nofun
  | cons entry entries ih =>
    obtain ⟨key, x⟩ := entry
    obtain ⟨hx, hrest⟩ := List.forall_mem_cons.mp h
    refine bind hx fun v hv => bind (ih hrest) fun vs hvs => pure ?_
    exact List.forall_mem_cons.mpr ⟨hv, hvs⟩

end Build.Sound

theorem Members.Within.putAll {size : Nat} {m : Members} (h : m.Within size)
    {entries : List (Text × Value)} (hentries : ∀ entry ∈ entries, entry.2.Within size) :
    (m.putAll entries).Within size := by
  induction entries generalizing m with
  | nil => exact h
  | cons entry entries ih =>
    obtain ⟨hentry, hrest⟩ := List.forall_mem_cons.mp hentries
    exact ih (h.put entry.1 hentry) hrest

theorem mem_sortedByKey {α : Type} {entries : List (Text × α)} {entry : Text × α} :
    entry ∈ sortedByKey entries ↔ entry ∈ entries :=
  List.mem_mergeSort

theorem Build.Sound.object {size : Nat} {entries : List (Text × Build Value)}
    (h : ∀ entry ∈ entries, entry.2.Sound size (Value.Within size)) :
    (Build.object entries).Sound size (Value.Within size) := by
  have hsorted := fun entry hentry => h entry (mem_sortedByKey.mp hentry)
  refine bind (sequence hsorted) fun vs hvs => of ?_
  rintro s hs rfl
  have hwithin : (Members.ofList vs).Within s.frames.size :=
    Members.within_empty.putAll hvs
  exact ⟨hs.newObject hwithin (.ofList vs), rfl, nofun⟩

namespace HostData

mutual

/-- The values that data holds already. -/
def values : HostData → List Value
  | .value v => [v]
  | .list items => valuesOfItems items
  | .map entries => valuesOfEntries entries
  | .keyedMap entries => valuesOfPairs entries
  | .pointer target => target.values
  | _ => []

@[inherit_doc values]
def valuesOfItems : List HostData → List Value
  | [] => []
  | item :: items => item.values ++ valuesOfItems items

@[inherit_doc values]
def valuesOfEntries : List (Text × HostData) → List Value
  | [] => []
  | (_, data) :: rest => data.values ++ valuesOfEntries rest

@[inherit_doc values]
def valuesOfPairs : List (HostData × HostData) → List Value
  | [] => []
  | (key, data) :: rest => key.values ++ data.values ++ valuesOfPairs rest

end

variable {size : Nat}

theorem numberValue_within {written : String} {v : Value} (h : numberValue written = .ok v) :
    v.Within size := by
  unfold numberValue at h
  split at h
  · cases h
    exact nofun
  · split at h
    · cases h
      exact nofun
    · split at h
      · cases h
        exact nofun
      · cases h

mutual

/-- Making a value of data keeps a store well-formed. -/
theorem toValue_sound : ∀ data : HostData, (∀ v ∈ data.values, v.Within size) →
    data.toValue.Sound size (Value.Within size)
  | .unsupported type, _ | .nilPointer type, _ => by
    rw [toValue]
    exact fun _ _ _ _ _ h => nomatch h
  | .bool _, _ | .int _, _ | .unsigned _, _ | .big _, _ | .double _, _ | .text _, _ => by
    rw [toValue]
    exact .pure nofun
  | .number written, _ => by
    intro s v s' hs hsize h
    simp only [toValue] at h
    split at h
    · next w hw =>
      cases h
      exact ⟨hs, hsize, numberValue_within hw⟩
    · cases h
  | .list items, h => by
    rw [toValue]
    refine .bind (toValues_sound items h) fun vs hvs => .of ?_
    rintro s hs rfl
    exact ⟨hs.newArray hvs, rfl, nofun⟩
  | .map entries, h => by
    rw [toValue]
    exact .object (entryValues_sound entries h)
  | .keyedMap entries, h => by
    rw [toValue]
    exact .bind (keyTexts_sound entries h) fun keyed hkeyed => .object hkeyed
  | .native f, _ => by
    rw [toValue]
    refine .of ?_
    rintro s hs rfl
    exact ⟨hs.newFunction nofun, rfl, nofun⟩
  | .pointer target, h => by
    rw [toValue]
    exact toValue_sound target h
  | .value v, h => by
    rw [toValue]
    exact .pure (h v List.mem_cons_self)

theorem toValues_sound : ∀ items : List HostData, (∀ v ∈ valuesOfItems items, v.Within size) →
    (toValues items).Sound size fun vs => ∀ v ∈ vs, v.Within size
  | [], _ => by
    rw [toValues]
    exact .pure nofun
  | item :: items, h => by
    rw [toValues]
    obtain ⟨hitem, hitems⟩ := List.forall_mem_append.mp h
    refine .bind (toValue_sound item hitem) fun v hv => ?_
    refine .bind (toValues_sound items hitems) fun vs hvs => .pure ?_
    exact List.forall_mem_cons.mpr ⟨hv, hvs⟩

theorem entryValues_sound : ∀ entries : List (Text × HostData),
    (∀ v ∈ valuesOfEntries entries, v.Within size) →
      ∀ entry ∈ entryValues entries, entry.2.Sound size (Value.Within size)
  | [], _ => nofun
  | (key, data) :: rest, h => by
    rw [entryValues]
    obtain ⟨hdata, hrest⟩ := List.forall_mem_append.mp h
    exact List.forall_mem_cons.mpr ⟨toValue_sound data hdata, entryValues_sound rest hrest⟩

theorem keyTexts_sound : ∀ entries : List (HostData × HostData),
    (∀ v ∈ valuesOfPairs entries, v.Within size) →
      (keyTexts entries).Sound size fun keyed =>
        ∀ entry ∈ keyed, entry.2.Sound size (Value.Within size)
  | [], _ => by
    rw [keyTexts]
    exact .pure nofun
  | (key, data) :: rest, h => by
    rw [keyTexts]
    obtain ⟨hboth, hrest⟩ := List.forall_mem_append.mp h
    obtain ⟨hkey, hdata⟩ := List.forall_mem_append.mp hboth
    refine .bind (toValue_sound key hkey) fun k _ => ?_
    have htext : Build.Sound size (fun _ => True) (Build.of fun s => (s.text k, s)) :=
      .of fun s hs hsize => ⟨hs, hsize, trivial⟩
    refine .bind htext fun text _ => ?_
    refine .bind (keyTexts_sound rest hrest) fun others hothers => .pure ?_
    exact List.forall_mem_cons.mpr ⟨toValue_sound data hdata, hothers⟩

end

end HostData

/-! ## New scopes -/

namespace Store

/-- Binding names keeps a store well-formed and adds no frames. -/
theorem WellFormed.bindAll {s : Store} (hs : s.WellFormed) (id : Nat)
    {entries : List (Text × Value)} (hentries : ∀ entry ∈ entries, entry.2.Within s.frames.size) :
    let s' := entries.foldl (fun s entry => s.bind id entry.1 entry.2) s
    s'.WellFormed ∧ s'.frames.size = s.frames.size := by
  induction entries generalizing s with
  | nil => exact ⟨hs, rfl⟩
  | cons entry entries ih =>
    obtain ⟨hentry, hrest⟩ := List.forall_mem_cons.mp hentries
    have hsize : (s.bind id entry.1 entry.2).frames.size = s.frames.size := Array.size_modify
    obtain ⟨hkept, hsame⟩ := ih (hs.bind id entry.1 hentry) (by rw [hsize]; exact hrest)
    exact ⟨hkept, hsame.trans hsize⟩

theorem WellFormed.bindFunctions {s : Store} (hs : s.WellFormed) (id : Nat)
    {functions : List (Text × Function)}
    (hfunctions : ∀ entry ∈ functions, (Content.function entry.2).cells = []) :
    (s.bindFunctions id functions).WellFormed ∧
      (s.bindFunctions id functions).frames.size = s.frames.size := by
  induction functions generalizing s with
  | nil => exact ⟨hs, rfl⟩
  | cons entry functions ih =>
    obtain ⟨hentry, hrest⟩ := List.forall_mem_cons.mp hfunctions
    have hwithin : (Content.function entry.2).Within s.frames.size := by
      intro c hc
      rw [hentry] at hc
      cases hc
    have hnew := hs.newFunction hwithin
    have hvalue : (s.newFunction entry.2).1.Within s.frames.size := nofun
    obtain ⟨hkept, hsame⟩ := ih (hnew.bind id entry.1 hvalue) hrest
    exact ⟨hkept, hsame.trans Array.size_modify⟩

/-- A new root frame with the built-in functions. -/
theorem WellFormed.newRoot {s : Store} (hs : s.WellFormed) :
    s.newRoot.2.WellFormed ∧ s.newRoot.2.frames.size = s.frames.size + 1 := by
  have hbuiltins : ∀ entry ∈ Function.builtins, (Content.function entry.2).cells = [] := by
    decide
  obtain ⟨hkept, hsame⟩ := hs.newRootFrame.bindFunctions s.frames.size hbuiltins
  exact ⟨hkept, hsame.trans (Array.size_push _)⟩

/-- A new scope keeps a store well-formed and is one of its frames. -/
theorem newScope_wellFormed {parent : Option Nat} {initial : List (Text × HostData)}
    {s s' : Store} {id : Nat} (hs : s.WellFormed) (hparent : ∀ p ∈ parent, p < s.frames.size)
    (hinitial : ∀ v ∈ HostData.valuesOfEntries initial, v.Within s.frames.size)
    (h : newScope parent initial s = .ok (id, s')) : s'.WellFormed ∧ id < s'.frames.size := by
  have hframe : ∃ s₁, s₁.WellFormed ∧ s₁.frames.size = s.frames.size + 1 ∧
      newScope parent initial s =
        (do
          let vs ← Build.sequence (sortedByKey (HostData.entryValues initial))
          Build.of fun t => (s.frames.size,
            vs.foldl (fun t entry => t.bind s.frames.size entry.1 entry.2) t) : Build Nat) s₁ := by
    cases parent with
    | none => exact ⟨s.newRoot.2, hs.newRoot.1, hs.newRoot.2, rfl⟩
    | some p => exact ⟨(s.newFrame p).2, hs.newFrame (hparent p rfl), Array.size_push _, rfl⟩
  obtain ⟨s₁, hs₁, hsize, hrun⟩ := hframe
  rw [hrun] at h
  have hwithin : ∀ v ∈ HostData.valuesOfEntries initial, v.Within s₁.frames.size := by
    intro v hv
    rw [hsize]
    exact (hinitial v hv).mono (Nat.le_succ _)
  have hsorted : ∀ entry ∈ sortedByKey (HostData.entryValues initial),
      entry.2.Sound s₁.frames.size (Value.Within s₁.frames.size) := fun entry hentry =>
    HostData.entryValues_sound initial hwithin entry (mem_sortedByKey.mp hentry)
  have hbind (vs : List (Text × Value)) (hvs : ∀ entry ∈ vs, entry.2.Within s₁.frames.size) :
      Build.Sound s₁.frames.size (· < s₁.frames.size) (Build.of fun t => (s.frames.size,
        vs.foldl (fun t entry => t.bind s.frames.size entry.1 entry.2) t)) := by
    refine .of fun t ht htsize => ?_
    obtain ⟨hkept, hsame⟩ := ht.bindAll s.frames.size (by rw [htsize]; exact hvs)
    exact ⟨hkept, hsame.trans htsize, by omega⟩
  have hsound := Build.Sound.bind (Build.Sound.sequence hsorted) hbind
  obtain ⟨hkept, hsame, hid⟩ := hsound s₁ id s' hs₁ rfl h
  exact ⟨hkept, hsame ▸ hid⟩

end Store

/-! ## All that is done with a store -/

/-- From a well-formed machine, every program in a scope of the store ends with a well-formed
    machine, and making a scope or a value for the host gives a well-formed store. -/
theorem Machine.wellFormed_kept (m : Machine) (hm : m.WellFormed) :
    (∀ engine fuel program scope, scope < m.store.frames.size →
      ∀ m' ∈ (Engine.evaluate engine fuel program scope m).machine?, m'.WellFormed) ∧
    (∀ parent initial id s, (∀ p ∈ parent, p < m.store.frames.size) →
      (∀ v ∈ HostData.valuesOfEntries initial, v.Within m.store.frames.size) →
      Store.newScope parent initial m.store = .ok (id, s) →
        s.WellFormed ∧ id < s.frames.size) ∧
    (∀ data v s, (∀ w ∈ HostData.values data, w.Within m.store.frames.size) →
      data.toValue m.store = .ok (v, s) → s.WellFormed ∧ v.Within s.frames.size) := by
  refine ⟨?_, ?_, ?_⟩
  · intro engine fuel program scope hscope
    exact engine.evaluate_wellFormed fuel program hm hscope
  · intro parent initial id s hparent hinitial h
    exact Store.newScope_wellFormed hm.store hparent hinitial h
  · intro data v s hdata h
    obtain ⟨hkept, hsame, hv⟩ := HostData.toValue_sound data hdata m.store v s hm.store rfl h
    exact ⟨hkept, hsame ▸ hv⟩

/-- A store with a root frame and, under it, a frame of its own name `x`. -/
def nestedScopes : Store :=
  ((Store.empty.newRoot.2.newFrame 0).2.bind 1 "x" (.scope 1))

theorem nestedScopes_wellFormed_kept :
    nestedScopes.WellFormed ∧ 1 < nestedScopes.frames.size ∧
    (∀ engine fuel program,
      ∀ m' ∈ (Engine.evaluate engine fuel program 1 { store := nestedScopes }).machine?,
        m'.WellFormed) ∧
    (∃ id s, Store.newScope (some 1) [("y", .value (.scope 1))] nestedScopes = .ok (id, s) ∧
      s.WellFormed ∧ id < s.frames.size) ∧
    (∃ v s, (HostData.list [.value (.scope 1)]).toValue nestedScopes = .ok (v, s) ∧
      s.WellFormed ∧ v.Within s.frames.size) := by
  have hroot := Store.WellFormed.empty.newRoot
  have hframe : (Store.empty.newRoot.2.newFrame 0).2.WellFormed :=
    hroot.1.newFrame (by rw [hroot.2]; decide)
  have hsize : nestedScopes.frames.size = 2 := by
    simp only [nestedScopes, Store.bind, Array.size_modify]
    exact (Array.size_push _).trans (congrArg (· + 1) hroot.2)
  have hscope : 1 < nestedScopes.frames.size := by omega
  have hvalue : Value.Within nestedScopes.frames.size (.scope 1) := by
    rintro id ⟨rfl⟩
    exact hscope
  have hstore : nestedScopes.WellFormed := by
    refine hframe.bind 1 "x" ?_
    rintro id ⟨rfl⟩
    exact (Nat.lt_succ_self 1).trans_eq hsize.symm
  obtain ⟨heval, hnew, hdata⟩ :=
    Machine.wellFormed_kept { store := nestedScopes } ⟨hstore, List.forall_mem_nil _⟩
  refine ⟨hstore, hscope, fun engine fuel program => heval engine fuel program 1 hscope, ?_, ?_⟩
  · have hrun : Store.newScope (some 1) [("y", .value (.scope 1))] nestedScopes =
        .ok (nestedScopes.frames.size,
          (nestedScopes.newFrame 1).2.bind nestedScopes.frames.size "y" (.scope 1)) := by
      simp only [Store.newScope, HostData.entryValues, sortedByKey, List.mergeSort_singleton,
        HostData.toValue]
      rfl
    refine ⟨_, _, hrun, hnew _ _ _ _ ?_ ?_ hrun⟩
    · rintro p ⟨rfl⟩
      exact hscope
    · exact List.forall_mem_singleton.mpr hvalue
  · have hrun : (HostData.list [.value (.scope 1)]).toValue nestedScopes =
        .ok (nestedScopes.newArray #[.scope 1]) := by
      simp only [HostData.toValue, HostData.toValues]
      rfl
    refine ⟨_, _, hrun, hdata _ _ _ ?_ hrun⟩
    exact List.forall_mem_singleton.mpr hvalue

end ExprLang
