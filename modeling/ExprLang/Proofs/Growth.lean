import ExprLang.Proofs.Sessions

/-!
# Stores only grow

A property of stores that no writing takes away lasts through every session
(`Job.session_lasting`). One such property is to have grown out of a given store: all its cells are
still there, frames and objects have the names and keys they had, in their order and perhaps with
others behind them, and no array is shorter. What could be read once can therefore be read for ever
(`Engine.session_grows`).
-/

namespace ExprLang

/-! ## Lasting properties -/

namespace Simulation

variable {P : Store → Prop}

/-- A run on a store of a lasting property beside itself, from `depth` open calls on. -/
def growing (hP : Store.Lasting (fun _ _ => True) P) (depth : Nat) : Simulation :=
  lasting hP (fun calls d d' => d' = d ∧ d = depth + calls) False False

variable {hP : Store.Lasting (fun _ _ => True) P} {depth : Nat}

theorem growing_sameCells : (growing hP depth).SameCells :=
  ⟨fun _ _ => ⟨_, rfl⟩, fun _ => trivial, fun _ => id⟩

theorem growing_monitors (engine : Engine) :
    (growing hP depth).Monitors (.plain engine) (.plain engine) where
  around := id
  opening := fun h => Sim.nested (fun _ _ _ => Iff.rfl) _ fun _ => h

theorem growing_interps (engine : Engine) (fuel : Nat) :
    (growing hP depth).Interps 0 (fun _ => True) (fun _ => engine.interp fuel)
      (fun _ => engine.interp fuel) := by
  rw [← monitorPlain_interp engine fuel 0]
  exact (growing_monitors engine).interpsUnder (.inl ⟨trivial, rfl⟩)

theorem growing_start (hP : Store.Lasting (fun _ _ => True) P) {m : Machine} (hm : P m.store) :
    (growing hP m.depth).Machines 0 m m :=
  ⟨⟨rfl, hm⟩, rfl, rfl, rfl, rfl, ⟨rfl, rfl⟩⟩

/-- The store at the end of a run beside itself has the property. -/
theorem EndAlike.lasting {α : Type} {k : Nat} {L : Links} {o : Outcome α} {os : Nat → Outcome α}
    (h : (growing hP depth).EndAlike k L Same (fun _ => o) os) : ∀ m ∈ o.machine?, P m.store := by
  have hends := h.ends
  cases o with
  | done a m =>
    obtain ⟨b, n, -, hm, -⟩ := hends
    rintro _ ⟨rfl⟩
    exact hm.store.2
  | failed f m =>
    obtain hlost | ⟨n, -, hm, -⟩ := hends
    · exact hlost.elim
    · rintro _ ⟨rfl⟩
      exact hm.store.2
  | outOfFuel => exact nofun

end Simulation

section Lasting

open Simulation

variable {P : Store → Prop} (hP : Store.Lasting (fun _ _ => True) P) (engine : Engine) (fuel : Nat)
  {m : Machine} (hm : P m.store)
include hP hm

/-- A lasting property lasts through every job, whether it succeeds or fails. -/
theorem Job.run_lasting (job : Job) :
    ∀ m' ∈ (job.run (engine.interp fuel) m).machine?, P m'.store := by
  exact ((growing_interps engine fuel).job growing_sameCells le_rfl job.known_same m m
    (growing_start hP hm) le_rfl).lasting

/-- A lasting property lasts through every session. -/
theorem Job.session_lasting (jobs : List Job) :
    ∀ m' ∈ (Job.session (engine.interp fuel) jobs m).machine?, P m'.store := by
  have hknown : ∀ job ∈ jobs, job.Known .same := fun job _ => job.known_same
  exact ((growing_interps engine fuel).session growing_sameCells le_rfl hknown m m
    (growing_start hP hm) le_rfl).lasting

end Lasting

/-! ## Growth -/

/-- Cells of one kind that are all still there, each with what has become of it. -/
def GrownCells {α : Type} (R : α → α → Prop) (xs ys : Array α) : Prop :=
  ∀ (id : Nat) (x : α), xs[id]? = some x → ∃ y, ys[id]? = some y ∧ R x y

namespace GrownCells

variable {α : Type} {R : α → α → Prop} {xs ys : Array α}

theorem refl (hR : ∀ x, R x x) (xs : Array α) : GrownCells R xs xs :=
  fun _ x hx => ⟨x, hx, hR x⟩

theorem push (h : GrownCells R xs ys) (y : α) : GrownCells R xs (ys.push y) := by
  intro id x hx
  obtain ⟨z, hz, hxz⟩ := h id x hx
  have hne : id ≠ ys.size := Nat.ne_of_lt (Array.getElem?_eq_some_iff.mp hz).1
  refine ⟨z, ?_, hxz⟩
  rw [Array.getElem?_push, if_neg hne, hz]

theorem modify (h : GrownCells R xs ys) (a : Nat) {f : α → α} (hf : ∀ x y, R x y → R x (f y)) :
    GrownCells R xs (ys.modify a f) := by
  intro id x hx
  obtain ⟨z, hz, hxz⟩ := h id x hx
  rw [Array.getElem?_modify, hz]
  by_cases heq : a = id
  · rw [if_pos heq]
    exact ⟨f z, rfl, hf x z hxz⟩
  · rw [if_neg heq]
    exact ⟨z, rfl, hxz⟩

end GrownCells

/-- What can become of members: they keep their keys in their order, and keys that have a value keep
    one. -/
structure Members.Grows (m m' : Members) : Prop where
  keys : m.keys <+: m'.keys
  has : ∀ key, m.has key = true → m'.has key = true

/-- What can become of a frame: it keeps its place in the chain and its names in their order. -/
structure Frame.Grows (f f' : Frame) : Prop where
  parent : f'.parent = f.parent
  root : f'.root = f.root
  names : f.members.Grows f'.members

/-- A store in which all cells of another are still there, frames with their names, objects with
    their keys, arrays no shorter and functions as they were. -/
structure Store.Grows (s s' : Store) : Prop where
  frames : GrownCells Frame.Grows s.frames s'.frames
  arrays : GrownCells (fun xs ys => xs.size ≤ ys.size) s.arrays s'.arrays
  objects : GrownCells Members.Grows s.objects s'.objects
  functions : GrownCells Eq s.functions s'.functions

namespace Members.Grows

theorem refl (m : Members) : m.Grows m := ⟨List.prefix_rfl, fun _ => id⟩

/-- A key that is new goes to the end, and no value is taken away. -/
theorem put {m m' : Members} (h : m.Grows m') (key : Text) (v : Value) :
    m.Grows (m'.put key v) := by
  constructor
  · simp only [Members.put]
    split
    · exact h.keys
    · exact h.keys.trans (List.prefix_append _ _)
  · intro k hk
    rw [Members.has, get?_put]
    split
    · rfl
    · exact h.has k hk

end Members.Grows

namespace Store.Grows

theorem refl (s : Store) : s.Grows s where
  frames := .refl (fun f => ⟨rfl, rfl, .refl f.members⟩) _
  arrays := .refl (fun xs => Nat.le_refl xs.size) _
  objects := .refl Members.Grows.refl _
  functions := .refl (fun _ => rfl) _

theorem newFunction {start s : Store} (h : start.Grows s) (f : Function) :
    start.Grows (s.newFunction f).2 :=
  ⟨h.frames, h.arrays, h.objects, h.functions.push f⟩

/-- No writing undoes growth. -/
theorem lasting (start : Store) : Store.Lasting (fun _ _ => True) start.Grows where
  known := fun _ f _ => Links.same_knowsIn f
  newArray := fun h elems => ⟨h.frames, h.arrays.push elems, h.objects, h.functions⟩
  newObject := fun h members => ⟨h.frames, h.arrays, h.objects.push members, h.functions⟩
  newClosure := fun h _ _ _ _ => h.newFunction _
  newFrame := fun h parent => ⟨h.frames.push _, h.arrays, h.objects, h.functions⟩
  bind := by
    intro s h id name v
    refine ⟨h.frames.modify id ?_, h.arrays, h.objects, h.functions⟩
    intro f f' hf
    exact ⟨hf.parent, hf.root, hf.names.put name v⟩
  setElement := by
    intro s h id index v
    refine ⟨h.frames, h.arrays.modify id ?_, h.objects, h.functions⟩
    intro xs ys hsize
    split
    · rw [Array.size_setIfInBounds]
      exact hsize
    · rw [Array.size_push]
      exact Nat.le_succ_of_le hsize
  setMember := by
    intro s h id key v
    refine ⟨h.frames, h.arrays, h.objects.modify id ?_, h.functions⟩
    intro m m' hm
    exact hm.put key v

end Store.Grows

/-! ## What can be read -/

namespace Store

variable {s s' : Store} {id : Nat} {key : Text}

/-- The frame that owns a name has it. -/
theorem has_of_owner? {owner : Nat} (h : s.owner? key id = some owner) :
    (s.bindings owner).has key = true := by
  induction id using Nat.strongRecOn with
  | ind id ih =>
    rw [owner?] at h
    cases hf : s.frames[id]? with
    | none =>
      rw [hf] at h
      cases h
    | some f =>
      simp only [hf] at h
      split at h
      · next hhas =>
        cases h
        simp only [bindings, hf, hhas]
      · split at h
        · cases h
        · split at h
          · next parent _ hlt => exact ih parent hlt h
          · cases h

theorem lookup?_isSome_iff : (s.lookup? id key).isSome ↔ (s.owner? key id).isSome := by
  unfold lookup?
  cases howner : s.owner? key id with
  | none => rfl
  | some owner => exact iff_of_true (has_of_owner? howner) rfl

namespace Grows

variable (h : s.Grows s')
include h

/-- Along the same chain of frames a name is still found, though perhaps in a nearer frame. -/
theorem owner? (howner : (s.owner? key id).isSome) : (s'.owner? key id).isSome := by
  induction id using Nat.strongRecOn with
  | ind id ih =>
    rw [Store.owner?] at howner ⊢
    cases hf : s.frames[id]? with
    | none =>
      rw [hf] at howner
      cases howner
    | some f =>
      obtain ⟨f', hf', hgrown⟩ := h.frames id f hf
      simp only [hf, hf', hgrown.parent] at howner ⊢
      by_cases hhas' : f'.members.has key = true
      · rw [if_pos hhas']
        rfl
      · have hhas : ¬ f.members.has key = true := mt (hgrown.names.has key) hhas'
        rw [if_neg hhas] at howner
        rw [if_neg hhas']
        cases hparent : f.parent with
        | none =>
          rw [hparent] at howner
          cases howner
        | some parent =>
          simp only [hparent] at howner ⊢
          by_cases hlt : parent < id
          · rw [if_pos hlt] at howner ⊢
            exact ih parent hlt howner
          · rw [if_neg hlt] at howner
            cases howner

theorem size_elements_le (id : Nat) : (s.elements id).size ≤ (s'.elements id).size := by
  simp only [elements, Array.getD_eq_getD_getElem?]
  cases hxs : s.arrays[id]? with
  | none => exact Nat.zero_le _
  | some xs =>
    obtain ⟨ys, hys, hle⟩ := h.arrays id xs hxs
    rw [hys]
    exact hle

theorem has_members (id : Nat) (key : Text) (hhas : (s.members id).has key = true) :
    (s'.members id).has key = true := by
  simp only [members, Array.getD_eq_getD_getElem?] at hhas ⊢
  cases hm : s.objects[id]? with
  | none =>
    rw [hm] at hhas
    cases hhas
  | some m =>
    obtain ⟨m', hm', hgrown⟩ := h.objects id m hm
    rw [hm] at hhas
    rw [hm']
    exact hgrown.has key hhas

/-- A slot that can be read can be read in every store that has grown from the one at hand. -/
theorem read {slot : Slot} {v : Value} (hread : slot.read s = .ok v) :
    ∃ v', slot.read s' = .ok v' := by
  cases slot with
  | name scope key =>
    have hlookup : (s'.lookup? scope key).isSome := by
      rw [lookup?_isSome_iff]
      apply h.owner?
      rw [← lookup?_isSome_iff]
      cases hs : s.lookup? scope key with
      | none => simp [Slot.read, hs] at hread
      | some _ => rfl
    obtain ⟨v', hv'⟩ := Option.isSome_iff_exists.mp hlookup
    exact ⟨v', by simp [Slot.read, hv']⟩
  | element array index =>
    simp only [Slot.read] at hread ⊢
    split at hread
    · next hindex =>
      split at hread
      · next w hw =>
        have hlt := (Array.getElem?_eq_some_iff.mp hw).1
        have hlt' := Nat.lt_of_lt_of_le hlt (h.size_elements_le array)
        rw [if_pos hindex, Array.getElem?_eq_getElem hlt']
        exact ⟨_, rfl⟩
      · cases hread
    · cases hread
  | member object key =>
    have hhas : ((s'.members object).get? key).isSome := by
      apply h.has_members object key
      cases hs : (s.members object).get? key with
      | none => simp [Slot.read, hs] at hread
      | some _ => simp [Members.has, hs]
    obtain ⟨v', hv'⟩ := Option.isSome_iff_exists.mp hhas
    exact ⟨v', by simp [Slot.read, hv']⟩
  | immediate w => exact ⟨w, rfl⟩

end Grows

end Store

namespace Engine

/-- Every frame, object and array is still there after a program, whether it succeeds or fails, and
    after a session: with the names and keys it had, in their order, or no shorter than it was. What
    could be read before can be read then. -/
theorem session_grows (engine : Engine) (fuel : Nat) (m : Machine) :
    (∀ program scope, ∀ m' ∈ (engine.evaluate fuel program scope m).machine?,
      m.store.Grows m'.store) ∧
    ∀ jobs, ∀ m' ∈ (Job.session (engine.interp fuel) jobs m).machine?,
      m.store.Grows m'.store ∧
      ∀ slot v, Slot.read m.store slot = .ok v → ∃ v', Slot.read m'.store slot = .ok v' := by
  have hlasting := Store.Grows.lasting m.store
  constructor
  · intro program scope
    rw [← Job.run_program]
    exact Job.run_lasting hlasting engine fuel (.refl m.store) _
  · intro jobs m' hm'
    have hgrown := Job.session_lasting hlasting engine fuel (.refl m.store) jobs m' hm'
    exact ⟨hgrown, fun _ _ hread => hgrown.read hread⟩

/-- A list and a map in the outermost frame, and a frame inside it with a name of its own. -/
def stockRoom : Store where
  frames := #[⟨none, 0, .ofList [("LIST", .array 0), ("MAP", .object 0)]⟩,
    ⟨some 0, 0, .ofList [("N", .int 7)]⟩]
  arrays := #[#[.int 1, .int 2]]
  objects := #[.ofList [("a", .int 1), ("b", .int 2)]]

/-- Adds to the list and then fails on a name that is missing; adds to the map. -/
def stockJobs : List Job :=
  [.program 1 ⟨some (.list
      [.assign .plain (.index (.ref (.name "LIST" .start)) (.literal 0 .int "2" .start) .start)
        (.literal 1 .int "3" .start) .start,
      .ref (.name "MISSING" .start)] .start)⟩,
    .visit 1 (.assign .plain (.member (.ref (.name "MAP" .start)) "c" .start)
      (.ref (.name "N" .start)) .start)]

/-- The list has an element more and the map a key more, though the first job fails; the second
    element of the list can still be read. -/
theorem session_grows_stockJobs :
    let m : Machine := { store := stockRoom }
    let m' := (Job.session (Engine.interp {} 8) stockJobs m).machine?
    ((m'.map fun m' => ((m'.store.elements 0).size, (m'.store.members 0).keys)) =
        some (3, [("a" : Text), "b", "c"]) ∧
      Slot.read stockRoom (.element 0 1) = .ok (.int 2)) ∧
    ∀ m'' ∈ m', stockRoom.Grows m''.store ∧
      ∃ v', Slot.read m''.store (.element 0 1) = .ok v' := by
  refine ⟨by decide +kernel, fun m'' hm'' => ?_⟩
  obtain ⟨hgrown, hread⟩ := (session_grows {} 8 { store := stockRoom }).2 stockJobs m'' hm''
  exact ⟨hgrown, hread (.element 0 1) (.int 2) (by decide +kernel)⟩

end Engine

end ExprLang
