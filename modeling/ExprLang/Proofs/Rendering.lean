import ExprLang.Proofs.LinkedStores
import Mathlib.Data.List.Perm.Subperm

/-!
# Rendering of linked stores

A rendering goes down a path of containers without a repetition, so its path is never longer than
there are containers and the budget is never used up. The text of a value is therefore the same in
linked stores, however many other containers they have.
-/

namespace ExprLang

namespace Store

section Render

variable {s : Store} {id : Nat} {path : List Value} (budget : Nat)

theorem render_array_empty (h : (s.elements id).toList = []) :
    s.render (budget + 1) path (.array id) = "[]" := by
  rw [render, if_pos (by simpa using h)]

theorem render_array_inside (h : (s.elements id).toList ≠ []) (hin : .array id ∈ path) :
    s.render (budget + 1) path (.array id) = "[...]" := by
  rw [render, if_neg (by simpa using h), if_pos (by simpa using hin)]

theorem render_array (h : (s.elements id).toList ≠ []) (hnew : .array id ∉ path) :
    s.render (budget + 1) path (.array id) =
      bracketed ((s.elements id).toList.map fun v =>
        indent (s.render budget (.array id :: path) v)) := by
  rw [render, if_neg (by simpa using h), if_neg (by simpa using hnew)]

theorem render_object_inside (hin : .object id ∈ path) :
    s.render (budget + 1) path (.object id) = "\x7b...\x7d" := by
  rw [render, if_pos (by simpa using hin)]

theorem render_object (hnew : .object id ∉ path) :
    s.render (budget + 1) path (.object id) =
      braced ((s.members id).entries.map fun entry =>
        entry.1 ++ " : " ++ indent (s.render budget (.object id :: path) entry.2)) := by
  rw [render, if_neg (by simpa using hnew)]

end Render

/-- The containers of a store, as values. -/
def containerList (s : Store) : List Value :=
  (List.range s.arrays.size).map .array ++ (List.range s.objects.size).map .object

theorem length_containerList (s : Store) : s.containerList.length = s.containers := by
  simp [containerList, containers]

theorem array_mem_containerList {s : Store} {id : Nat} (h : (s.elements id).toList ≠ []) :
    .array id ∈ s.containerList := by
  have hid : id < s.arrays.size := by
    by_contra hge
    rw [elements, Array.getD_eq_getD_getElem?, Array.getElem?_eq_none (Nat.le_of_not_lt hge)] at h
    exact h rfl
  exact List.mem_append_left _ (List.mem_map_of_mem (List.mem_range.mpr hid))

theorem object_mem_containerList {s : Store} {id : Nat} {entry : Text × Value}
    (h : entry ∈ (s.members id).vals) : .object id ∈ s.containerList := by
  have hid : id < s.objects.size := by
    by_contra hge
    rw [members, Array.getD_eq_getD_getElem?, Array.getElem?_eq_none (Nat.le_of_not_lt hge)] at h
    cases h
  exact List.mem_append_right _ (List.mem_map_of_mem (List.mem_range.mpr hid))

/-- The containers that a rendering is inside of. -/
structure IsPath (s : Store) (path : List Value) : Prop where
  nodup : path.Nodup
  mem : ∀ v ∈ path, v ∈ s.containerList

namespace IsPath

variable {s : Store} {path : List Value}

theorem nil : s.IsPath [] := ⟨List.nodup_nil, nofun⟩

theorem cons {v : Value} (h : s.IsPath path) (hv : v ∈ s.containerList) (hnew : v ∉ path) :
    s.IsPath (v :: path) :=
  ⟨List.nodup_cons.mpr ⟨hnew, h.nodup⟩, List.forall_mem_cons.mpr ⟨hv, h.mem⟩⟩

/-- No path is longer than there are containers. -/
theorem length_le (h : s.IsPath path) : path.length ≤ s.containers := by
  rw [← s.length_containerList]
  exact (List.subperm_of_subset h.nodup h.mem).length_le

/-- A budget that covers all containers is not used up. -/
theorem exists_succ {budget : Nat} (h : s.IsPath path)
    (hbudget : s.containers < path.length + budget) :
    ∃ rest, budget = rest + 1 := by
  have hle := h.length_le
  exact ⟨budget - 1, by omega⟩

end IsPath

end Store

section Linked

variable {L : Links} {ok : Function → Prop} {s t : Store} (h : s.Linked L ok t) (hL : L.Ordered)
include hL

theorem Value.AllLinked.mem_iff {vs ws : List Value} (hvs : AllLinked L vs ws) {v w : Value}
    (hv : v.Linked L w) : v ∈ vs ↔ w ∈ ws := by
  unfold AllLinked at hvs
  induction hvs with
  | nil => simp only [List.not_mem_nil]
  | cons hvw _ ih => rw [List.mem_cons, List.mem_cons, hL.value_eq_iff hv hvw, ih]

namespace Store.Linked

include h

theorem render_eq {budget budget' : Nat} {path path' : List Value} {v w : Value}
    (hpath : s.IsPath path) (hpath' : t.IsPath path')
    (hbudget : s.containers < path.length + budget)
    (hbudget' : t.containers < path'.length + budget')
    (hpaths : Value.AllLinked L path path') (hv : v.Linked L w) :
    s.render budget path v = t.render budget' path' w := by
  induction budget generalizing budget' path path' v w with
  | zero =>
    have hle := hpath.length_le
    omega
  | succ budget ih =>
    obtain ⟨budget', rfl⟩ := hpath'.exists_succ hbudget'
    have hmem := hpaths.mem_iff hL hv
    -- one container further down, if it has something in it
    have down {u u' : Value} (hin : v ∈ s.containerList) (hin' : w ∈ t.containerList)
        (hnew : v ∉ path) (hu : u.Linked L u') :
        s.render budget (v :: path) u = t.render budget' (w :: path') u' := by
      refine ih (hpath.cons hin hnew) (hpath'.cons hin' (mt hmem.mpr hnew)) ?_ ?_
        (.cons hv hpaths) hu
      · rw [List.length_cons]
        omega
      · rw [List.length_cons]
        omega
    cases hv with
    | int n => rfl
    | double x => rfl
    | text x => rfl
    | function hf => rfl
    | scope hf => rfl
    | @array a b hab =>
      have helems := h.elements hab
      by_cases hnil : (s.elements a).toList = []
      · have hnil' : (t.elements b).toList = [] := by
          rw [hnil] at helems
          exact List.forall₂_nil_left_iff.mp helems
        rw [render_array_empty _ hnil, render_array_empty _ hnil']
      · have hnil' : (t.elements b).toList ≠ [] := by
          intro he
          rw [he] at helems
          exact hnil (List.forall₂_nil_right_iff.mp helems)
        by_cases hin : .array a ∈ path
        · rw [render_array_inside _ hnil hin, render_array_inside _ hnil' (hmem.mp hin)]
        · rw [render_array _ hnil hin, render_array _ hnil' (mt hmem.mpr hin)]
          refine congrArg bracketed (helems.map_eq ?_)
          intro u u' hu
          rw [down (array_mem_containerList hnil) (array_mem_containerList hnil') hin hu]
    | @object a b hab =>
      by_cases hin : .object a ∈ path
      · rw [render_object_inside _ hin, render_object_inside _ (hmem.mp hin)]
      · rw [render_object _ hin, render_object _ (mt hmem.mpr hin)]
        refine congrArg braced ((h.members hab).map_entries_eq ?_)
        intro key u u' hu hentry hentry'
        have hcell := object_mem_containerList (Members.mem_vals_of_mem_entries hentry)
        have hcell' := object_mem_containerList (Members.mem_vals_of_mem_entries hentry')
        rw [down hcell hcell' hin hu]

theorem encoded_eq {v w : Value} (hv : v.Linked L w) : s.encoded v = t.encoded w := by
  refine h.render_eq hL .nil .nil ?_ ?_ .nil hv
  · rw [List.length_nil]
    omega
  · rw [List.length_nil]
    omega

theorem renderFrame_eq {a b : Nat} (hab : L.frames a b) : s.renderFrame a = t.renderFrame b := by
  induction a using Nat.strongRecOn generalizing b with
  | ind a ih =>
    rw [Store.renderFrame, Store.renderFrame]
    rcases rel_cases (h.frames.get hab) with ⟨hx, hy⟩ | ⟨f, g, hx, hy, hfg⟩
    · rw [hx, hy]
    · rw [hx, hy]
      refine congrArg braced (congrArg₂ _ ?_ (hfg.members.map_entries_eq ?_))
      · rcases rel_cases hfg.parent with ⟨hp, hq⟩ | ⟨p, q, hp, hq, hpq⟩
        · rw [hp, hq]
        · simp only [hp, hq]
          have holder := hL.frames.lt_iff hpq hab
          by_cases hlt : p < a
          · rw [if_pos hlt, if_pos (holder.mp hlt), ih p hlt hpq]
          · rw [if_neg hlt, if_neg (mt holder.mpr hlt)]
      · intro key u u' hu _ _
        simp only [h.encoded_eq hL hu]

/-- Linked values have the same text. -/
theorem text_eq {v w : Value} (hv : v.Linked L w) : s.text v = t.text w := by
  cases hv with
  | text x => rfl
  | scope hf => exact h.renderFrame_eq hL hf
  | int n => exact h.encoded_eq hL (.int n)
  | double x => exact h.encoded_eq hL (.double x)
  | array hab => exact h.encoded_eq hL (.array hab)
  | object hab => exact h.encoded_eq hL (.object hab)
  | function hf => exact h.encoded_eq hL (.function hf)

end Store.Linked

end Linked

end ExprLang
