import ExprLang.Proofs.Simulation

/-!
# Stores that hold linked data

Two stores are linked if linked cells hold linked data and the cells added next will be linked, each
to the one added at the same time to the other store. Programs read the same from such stores, and
stores that are written alike stay linked.
-/

namespace ExprLang

/-- Related numbers stand in the same order on both sides. -/
structure OrderPreserving (r : Nat → Nat → Prop) : Prop where
  lt_iff : ∀ {a b a' b' : Nat}, r a b → r a' b' → (a < a' ↔ b < b')

theorem OrderPreserving.eq_iff {r : Nat → Nat → Prop} (h : OrderPreserving r) {a b a' b' : Nat}
    (hab : r a b) (hab' : r a' b') : a = a' ↔ b = b' := by
  have hlt := h.lt_iff hab hab'
  have hgt := h.lt_iff hab' hab
  omega

/-- Cells of one kind in two stores: related cells hold related data, and so will the cells that are
    added next. -/
structure Cells {α β : Type} (r : Nat → Nat → Prop) (R : α → β → Prop) (xs : Array α)
    (ys : Array β) : Prop where
  get : ∀ {a b : Nat}, r a b → Option.Rel R xs[a]? ys[b]?
  fresh : ∀ i, r (xs.size + i) (ys.size + i)

namespace Cells

variable {α β : Type} {r : Nat → Nat → Prop} {R : α → β → Prop} {xs : Array α} {ys : Array β}

theorem fresh_first (h : Cells r R xs ys) : r xs.size ys.size := h.fresh 0

theorem push (h : Cells r R xs ys) (hr : OrderPreserving r) {x : α} {y : β} (hxy : R x y) :
    Cells r R (xs.push x) (ys.push y) where
  get := by
    intro a b hab
    have hlast := hr.eq_iff hab h.fresh_first
    rw [Array.getElem?_push, Array.getElem?_push]
    by_cases ha : a = xs.size
    · rw [if_pos ha, if_pos (hlast.mp ha)]
      exact .some hxy
    · rw [if_neg ha, if_neg (mt hlast.mpr ha)]
      exact h.get hab
  fresh := by
    intro i
    have hnext := h.fresh (1 + i)
    rw [← Nat.add_assoc, ← Nat.add_assoc] at hnext
    rw [Array.size_push, Array.size_push]
    exact hnext

theorem modify (h : Cells r R xs ys) (hr : OrderPreserving r) {a b : Nat} (hab : r a b)
    {f : α → α} {g : β → β} (hfg : ∀ x y, R x y → R (f x) (g y)) :
    Cells r R (xs.modify a f) (ys.modify b g) where
  get := by
    intro a' b' hab'
    have hsame := hr.eq_iff hab hab'
    rw [Array.getElem?_modify, Array.getElem?_modify]
    by_cases ha : a = a'
    · rw [if_pos ha, if_pos (hsame.mp ha)]
      rcases rel_cases (h.get hab') with ⟨hx, hy⟩ | ⟨x, y, hx, hy, hxy⟩
      · rw [hx, hy]
        exact .none
      · rw [hx, hy]
        exact .some (hfg x y hxy)
    · rw [if_neg ha, if_neg (mt hsame.mpr ha)]
      exact h.get hab'
  fresh := by
    intro i
    rw [Array.size_modify, Array.size_modify]
    exact h.fresh i

end Cells

/-- Links that keep the order of cells, so that no cell is linked twice, and ask nothing of nodes.
    -/
structure Links.Ordered (L : Links) : Prop where
  frames : OrderPreserving L.frames
  arrays : OrderPreserving L.arrays
  objects : OrderPreserving L.objects
  functions : OrderPreserving L.functions
  nodes : ∀ l node, L.nodes l node

/-- Linked values are equal to others exactly if those linked to them are. -/
theorem Links.Ordered.value_eq_iff {L : Links} (hL : L.Ordered) {v w v' w' : Value}
    (hv : v.Linked L w) (hv' : v'.Linked L w') : v = v' ↔ w = w' := by
  cases hv with
  | array h =>
    cases hv' with
    | array h' => simp only [Value.array.injEq, hL.arrays.eq_iff h h']
    | _ => simp only [reduceCtorEq]
  | object h =>
    cases hv' with
    | object h' => simp only [Value.object.injEq, hL.objects.eq_iff h h']
    | _ => simp only [reduceCtorEq]
  | function h =>
    cases hv' with
    | function h' => simp only [Value.function.injEq, hL.functions.eq_iff h h']
    | _ => simp only [reduceCtorEq]
  | scope h =>
    cases hv' with
    | scope h' => simp only [Value.scope.injEq, hL.frames.eq_iff h h']
    | _ => simp only [reduceCtorEq]
  | _ => cases hv' <;> simp only [reduceCtorEq]

/-- Frames that are equal but for linked cells. -/
structure Frame.Linked (L : Links) (f g : Frame) : Prop where
  parent : Option.Rel L.frames f.parent g.parent
  root : L.frames f.root g.root
  members : f.members.Linked L g.members

/-- Stores whose linked cells hold linked data, and functions of some kind only. -/
structure Store.Linked (L : Links) (ok : Function → Prop) (s t : Store) : Prop where
  frames : Cells L.frames (Frame.Linked L) s.frames t.frames
  arrays : Cells L.arrays (fun xs ys => Value.AllLinked L xs.toList ys.toList) s.arrays t.arrays
  objects : Cells L.objects (Members.Linked L) s.objects t.objects
  functions : Cells L.functions (fun f g => f.Linked L g ∧ ok f) s.functions t.functions

namespace Store.Linked

variable {L : Links} {ok : Function → Prop} {s t : Store} (h : s.Linked L ok t) {a b : Nat}
include h

/-! ## Reading -/

theorem elements (hab : L.arrays a b) :
    Value.AllLinked L (s.elements a).toList (t.elements b).toList := by
  unfold Store.elements
  rw [Array.getD_eq_getD_getElem?, Array.getD_eq_getD_getElem?]
  rcases rel_cases (h.arrays.get hab) with ⟨hx, hy⟩ | ⟨xs, ys, hx, hy, hxy⟩
  · rw [hx, hy]
    exact .nil
  · rw [hx, hy]
    exact hxy

theorem members (hab : L.objects a b) : (s.members a).Linked L (t.members b) := by
  unfold Store.members
  rw [Array.getD_eq_getD_getElem?, Array.getD_eq_getD_getElem?]
  rcases rel_cases (h.objects.get hab) with ⟨hx, hy⟩ | ⟨xs, ys, hx, hy, hxy⟩
  · rw [hx, hy]
    exact .empty
  · rw [hx, hy]
    exact hxy

theorem bindings (hab : L.frames a b) : (s.bindings a).Linked L (t.bindings b) := by
  unfold Store.bindings
  rcases rel_cases (h.frames.get hab) with ⟨hx, hy⟩ | ⟨f, g, hx, hy, hfg⟩
  · rw [hx, hy]
    exact .empty
  · rw [hx, hy]
    exact hfg.members

theorem root (hab : L.frames a b) : L.frames (s.root a) (t.root b) := by
  unfold Store.root
  rcases rel_cases (h.frames.get hab) with ⟨hx, hy⟩ | ⟨f, g, hx, hy, hfg⟩
  · rw [hx, hy]
    exact hab
  · rw [hx, hy]
    exact hfg.root

/-- The chain of frames ends in both stores at the same place, for parents are older than their
    children in both or in neither. -/
theorem owner (hL : L.Ordered) (hab : L.frames a b) (key : Text) :
    Option.Rel L.frames (s.owner? key a) (t.owner? key b) := by
  induction a using Nat.strongRecOn generalizing b with
  | ind a ih =>
    rw [Store.owner?, Store.owner?]
    rcases rel_cases (h.frames.get hab) with ⟨hx, hy⟩ | ⟨f, g, hx, hy, hfg⟩
    · rw [hx, hy]
      exact .none
    · simp only [hx, hy, hfg.members.has_eq key]
      by_cases hhas : g.members.has key = true
      · rw [if_pos hhas, if_pos hhas]
        exact .some hab
      · rw [if_neg hhas, if_neg hhas]
        rcases rel_cases hfg.parent with ⟨hp, hq⟩ | ⟨p, q, hp, hq, hpq⟩
        · rw [hp, hq]
          exact .none
        · simp only [hp, hq]
          have holder := hL.frames.lt_iff hpq hab
          by_cases hlt : p < a
          · rw [if_pos hlt, if_pos (holder.mp hlt)]
            exact ih p hlt hpq
          · rw [if_neg hlt, if_neg (mt holder.mpr hlt)]
            exact .none

/-! ## Writing -/

variable (hL : L.Ordered)
include hL

theorem newArray {xs ys : Array Value} (hxs : Value.AllLinked L xs.toList ys.toList) :
    (s.newArray xs).2.Linked L ok (t.newArray ys).2 ∧
      (s.newArray xs).1.Linked L (t.newArray ys).1 :=
  ⟨⟨h.frames, h.arrays.push hL.arrays hxs, h.objects, h.functions⟩, .array h.arrays.fresh_first⟩

theorem newObject {xs ys : Members} (hxs : xs.Linked L ys) :
    (s.newObject xs).2.Linked L ok (t.newObject ys).2 ∧
      (s.newObject xs).1.Linked L (t.newObject ys).1 :=
  ⟨⟨h.frames, h.arrays, h.objects.push hL.objects hxs, h.functions⟩, .object h.objects.fresh_first⟩

theorem newFunction {f g : Function} (hfg : f.Linked L g) (hf : ok f) :
    (s.newFunction f).2.Linked L ok (t.newFunction g).2 ∧
      (s.newFunction f).1.Linked L (t.newFunction g).1 :=
  ⟨⟨h.frames, h.arrays, h.objects, h.functions.push hL.functions ⟨hfg, hf⟩⟩,
    .function h.functions.fresh_first⟩

theorem newFrame (hab : L.frames a b) :
    (s.newFrame a).2.Linked L ok (t.newFrame b).2 ∧
      L.frames (s.newFrame a).1 (t.newFrame b).1 := by
  have hframe : Frame.Linked L ⟨some a, s.root a, .empty⟩ ⟨some b, t.root b, .empty⟩ :=
    ⟨.some hab, h.root hab, .empty⟩
  exact ⟨⟨h.frames.push hL.frames hframe, h.arrays, h.objects, h.functions⟩,
    h.frames.fresh_first⟩

variable {v w : Value}

theorem bind (hab : L.frames a b) (hv : v.Linked L w) (key : Text) :
    (s.bind a key v).Linked L ok (t.bind b key w) := by
  refine ⟨?_, h.arrays, h.objects, h.functions⟩
  simp only [Store.bind]
  refine h.frames.modify hL.frames hab ?_
  intro f g hfg
  exact ⟨hfg.parent, hfg.root, hfg.members.put key hv⟩

theorem setMember (hab : L.objects a b) (hv : v.Linked L w) (key : Text) :
    (s.setMember a key v).Linked L ok (t.setMember b key w) := by
  refine ⟨h.frames, h.arrays, ?_, h.functions⟩
  simp only [Store.setMember]
  refine h.objects.modify hL.objects hab ?_
  intro xs ys hxs
  exact hxs.put key hv

theorem setElement (hab : L.arrays a b) (hv : v.Linked L w) (index : Nat) :
    (s.setElement a index v).Linked L ok (t.setElement b index w) := by
  refine ⟨h.frames, ?_, h.objects, h.functions⟩
  simp only [Store.setElement]
  refine h.arrays.modify hL.arrays hab ?_
  intro xs ys hxs
  have hsize : xs.size = ys.size := by simpa using List.Forall₂.length_eq hxs
  rw [hsize]
  split
  · rw [Array.toList_setIfInBounds, Array.toList_setIfInBounds]
    exact forall₂_set hxs index hv
  · rw [Array.toList_push, Array.toList_push]
    exact List.rel_append hxs (.cons hv .nil)

end Store.Linked

end ExprLang
