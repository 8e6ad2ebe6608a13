import ExprLang.Data
import ExprLang.Proofs.Rendering
import ExprLang.Proofs.Texts
import Mathlib.Data.List.Forall2

/-!
# Values as plain data

`Store.Holds` unfolds a value into plain data, reference after reference. Only values without
cycles can be unfolded to the end, and each into one piece of data, so that what a value unfolds to
says all about it but where its parts are kept.
-/

namespace ExprLang

/-- Lists that agree place by place, if what is shown may depend on where the second one's items
    come from. -/
theorem forall₂_imp_of_mem {α β : Type} {R S : α → β → Prop} {xs : List α} {ys : List β}
    (h : List.Forall₂ R xs ys) (himp : ∀ y ∈ ys, ∀ x, R x y → S x y) : List.Forall₂ S xs ys := by
  induction h with
  | nil => exact .nil
  | cons hxy _ ih =>
    obtain ⟨hy, hys⟩ := List.forall_mem_cons.mp himp
    exact .cons (hy _ hxy) (ih hys)

/-- Entries with the same keys whose values agree. -/
theorem forall₂_of_keys {κ α β : Type} {R : α → β → Prop} {xs : List (κ × α)} {ys : List (κ × β)}
    (hkeys : xs.map Prod.fst = ys.map Prod.fst)
    (h : List.Forall₂ R (xs.map Prod.snd) (ys.map Prod.snd)) :
    List.Forall₂ (fun x y => x.1 = y.1 ∧ R x.2 y.2) xs ys := by
  induction xs generalizing ys with
  | nil =>
    obtain rfl := List.map_eq_nil_iff.mp hkeys.symm
    exact .nil
  | cons x xs ih =>
    cases ys with
    | nil => cases hkeys
    | cons y ys =>
      obtain ⟨hkey, hkeys⟩ := List.cons.inj hkeys
      obtain _ | ⟨hxy, h⟩ := h
      exact .cons ⟨hkey, hxy⟩ (ih hkeys h)

theorem exists_of_forall₂ {α β : Type} {R : α → β → Prop} {xs : List α} {ys : List β}
    (h : List.Forall₂ R xs ys) {x : α} (hx : x ∈ xs) : ∃ y ∈ ys, R x y := by
  induction h with
  | nil => cases hx
  | cons hxy _ ih =>
    rcases List.mem_cons.mp hx with rfl | hmem
    · exact ⟨_, List.mem_cons_self, hxy⟩
    · obtain ⟨y, hy, hR⟩ := ih hmem
      exact ⟨y, List.mem_cons_of_mem _ hy, hR⟩

theorem exists_forall₂ {α β : Type} {R : α → β → Prop} {as : List α}
    (h : ∀ a ∈ as, ∃ b, R a b) : ∃ bs, List.Forall₂ R as bs := by
  induction as with
  | nil => exact ⟨[], .nil⟩
  | cons a as ih =>
    obtain ⟨⟨b, hb⟩, hrest⟩ := List.forall_mem_cons.mp h
    obtain ⟨bs, hbs⟩ := ih hrest
    exact ⟨b :: bs, .cons hb hbs⟩

namespace Data

theorem sizeOf_lt_of_mem_list {items : List Data} {item : Data} (h : item ∈ items) :
    sizeOf item < sizeOf (list items) := by
  have hlt := List.sizeOf_lt_of_mem h
  rw [list.sizeOf_spec]
  omega

theorem sizeOf_lt_of_mem_map {entries : List (Text × Data)} {item : Data}
    (h : item ∈ entries.map Prod.snd) : sizeOf item < sizeOf (map entries) := by
  obtain ⟨⟨key, item⟩, hentry, rfl⟩ := List.mem_map.mp h
  have hlt := List.sizeOf_lt_of_mem hentry
  rw [Prod.mk.sizeOf_spec] at hlt
  rw [map.sizeOf_spec]
  show sizeOf item < _
  omega

/-- What holds of data if it holds of their items holds of all data. -/
@[elab_as_elim]
theorem induct {motive : Data → Prop} (int : ∀ n, motive (.int n))
    (double : ∀ x, motive (.double x)) (text : ∀ t, motive (.text t))
    (list : ∀ items, (∀ item ∈ items, motive item) → motive (.list items))
    (map : ∀ entries, (∀ item ∈ entries.map Prod.snd, motive item) → motive (.map entries)) :
    ∀ d, motive d
  | .int n => int n
  | .double x => double x
  | .text t => text t
  | .list items => list items fun item _ => induct int double text list map item
  | .map entries => map entries fun item _ => induct int double text list map item
termination_by d => sizeOf d
decreasing_by
  · exact sizeOf_lt_of_mem_list ‹_›
  · exact sizeOf_lt_of_mem_map ‹_›

/-- The keys of every map in the data are good. -/
inductive AllKeys (good : List Text → Prop) : Data → Prop
  | int (n : Int64) : AllKeys good (.int n)
  | double (x : Double) : AllKeys good (.double x)
  | text (t : Text) : AllKeys good (.text t)
  | list {items : List Data} (hitems : ∀ item ∈ items, AllKeys good item) :
    AllKeys good (.list items)
  | map {entries : List (Text × Data)} (hkeys : good (entries.map Prod.fst))
    (hitems : ∀ item ∈ entries.map Prod.snd, AllKeys good item) : AllKeys good (.map entries)

/-- The texts in the data and the keys of every map are texts of characters. -/
inductive Unicode : Data → Prop
  | int (n : Int64) : Unicode (.int n)
  | double (x : Double) : Unicode (.double x)
  | text {t : Text} (ht : t.IsUnicode) : Unicode (.text t)
  | list {items : List Data} (hitems : ∀ item ∈ items, Unicode item) : Unicode (.list items)
  | map {entries : List (Text × Data)} (hkeys : ∀ key ∈ entries.map Prod.fst, key.IsUnicode)
    (hitems : ∀ item ∈ entries.map Prod.snd, Unicode item) : Unicode (.map entries)

end Data

namespace Store

/-- A value is a number or a text, or an array or well-formed object of the store whose elements or
    members, in their order, are the items of a list or map. -/
inductive Holds (s : Store) : Value → Data → Prop
  | int (n : Int64) : Holds s (.int n) (.int n)
  | text (t : Text) : Holds s (.text t) (.text t)
  | array {id : Nat} {elems : Array Value} {items : List Data} (hcell : s.arrays[id]? = some elems)
    (hitems : List.Forall₂ (Holds s) elems.toList items) : Holds s (.array id) (.list items)
  | object {id : Nat} {members : Members} {entries : List (Text × Data)}
    (hcell : s.objects[id]? = some members) (hwell : members.WellFormed)
    (hkeys : members.keys = entries.map Prod.fst)
    (hitems : List.Forall₂ (Holds s) (members.entries.map Prod.snd) (entries.map Prod.snd)) :
    Holds s (.object id) (.map entries)

/-- The members of an object unfold into the entries of a map one by one. -/
theorem forall₂_entries {s : Store} {members : Members} {entries : List (Text × Data)}
    (hwell : members.WellFormed) (hkeys : members.keys = entries.map Prod.fst)
    (hitems : List.Forall₂ s.Holds (members.entries.map Prod.snd) (entries.map Prod.snd)) :
    List.Forall₂ (fun member entry => member.1 = entry.1 ∧ s.Holds member.2 entry.2)
      members.entries entries :=
  forall₂_of_keys (hwell.map_fst_entries.trans hkeys) hitems

/-- The arrays and objects of one store are those of the other. -/
structure Extends (s t : Store) : Prop where
  arrays : ∀ {id : Nat} {elems : Array Value},
    s.arrays[id]? = some elems → t.arrays[id]? = some elems
  objects : ∀ {id : Nat} {members : Members},
    s.objects[id]? = some members → t.objects[id]? = some members

theorem Extends.refl (s : Store) : s.Extends s := ⟨id, id⟩

theorem Extends.trans {s t u : Store} (h : s.Extends t) (h' : t.Extends u) : s.Extends u :=
  ⟨fun hcell => h'.arrays (h.arrays hcell), fun hcell => h'.objects (h.objects hcell)⟩

theorem getElem?_push_of_some {α : Type} {xs : Array α} {id : Nat} {a : α}
    (h : xs[id]? = some a) (b : α) : (xs.push b)[id]? = some a := by
  obtain ⟨hid, ha⟩ := Array.getElem?_eq_some_iff.mp h
  rw [Array.getElem?_push_lt hid, ha]

theorem newArray_extends (s : Store) (elems : Array Value) : s.Extends (s.newArray elems).2 :=
  ⟨fun hcell => getElem?_push_of_some hcell elems, id⟩

theorem newObject_extends (s : Store) (members : Members) : s.Extends (s.newObject members).2 :=
  ⟨id, fun hcell => getElem?_push_of_some hcell members⟩

namespace Holds

variable {s : Store}

/-- Data stay the same while other containers are added. -/
theorem mono {t : Store} {v : Value} {d : Data} (h : s.Holds v d) (hst : s.Extends t) :
    t.Holds v d := by
  induction d using Data.induct generalizing v with
  | int n =>
    cases h
    exact .int n
  | double x => cases h
  | text x =>
    cases h
    exact .text x
  | list items ih =>
    obtain _ | _ | ⟨hcell, hitems⟩ | _ := h
    exact .array (hst.arrays hcell)
      (forall₂_imp_of_mem hitems fun item hitem v hv => ih item hitem hv)
  | map entries ih =>
    obtain _ | _ | _ | ⟨hcell, hwell, hkeys, hitems⟩ := h
    exact .object (hst.objects hcell) hwell hkeys
      (forall₂_imp_of_mem hitems fun item hitem v hv => ih item hitem hv)

theorem forall₂_unique {vs : List Value} {items items' : List Data}
    (h : List.Forall₂ s.Holds vs items) (h' : List.Forall₂ s.Holds vs items')
    (hone : ∀ item ∈ items, ∀ v item', s.Holds v item → s.Holds v item' → item = item') :
    items = items' := by
  induction h generalizing items' with
  | nil =>
    cases h'
    rfl
  | cons hv _ ih =>
    obtain ⟨hitem, hitems⟩ := List.forall_mem_cons.mp hone
    cases h' with
    | cons hv' hvs' => rw [hitem _ _ hv hv', ih hvs' hitems]

/-- A value unfolds into one piece of data. -/
theorem unique {v : Value} {d d' : Data} (h : s.Holds v d) (h' : s.Holds v d') : d = d' := by
  induction d using Data.induct generalizing v d' with
  | int n =>
    cases h
    cases h'
    rfl
  | double x => cases h
  | text x =>
    cases h
    cases h'
    rfl
  | list items ih =>
    obtain _ | _ | ⟨hcell, hitems⟩ | _ := h
    obtain _ | _ | ⟨hcell', hitems'⟩ | _ := h'
    obtain rfl := Option.some.inj (hcell.symm.trans hcell')
    rw [forall₂_unique hitems hitems' fun item hitem v item' => ih item hitem]
  | map entries ih =>
    obtain _ | _ | _ | ⟨hcell, -, hkeys, hitems⟩ := h
    obtain _ | _ | _ | ⟨hcell', -, hkeys', hitems'⟩ := h'
    obtain rfl := Option.some.inj (hcell.symm.trans hcell')
    have hsnd := forall₂_unique hitems hitems' fun item hitem v item' => ih item hitem
    have hfst := hkeys'.symm.trans hkeys
    rw [List.zip_of_prod hfst hsnd.symm, ← List.zip_of_prod rfl rfl]

theorem exists_of_mem {vs : List Value} {items : List Data} (h : List.Forall₂ s.Holds vs items)
    {item : Data} (hitem : item ∈ items) : ∃ v ∈ vs, s.Holds v item :=
  exists_of_forall₂ h.flip hitem

/-- Data from a store have each key once. -/
theorem allKeys_nodup {v : Value} {d : Data} (h : s.Holds v d) : d.AllKeys List.Nodup := by
  induction d using Data.induct generalizing v with
  | int n => exact .int n
  | double x => exact .double x
  | text x => exact .text x
  | list items ih =>
    obtain _ | _ | ⟨hcell, hitems⟩ | _ := h
    refine .list fun item hitem => ?_
    obtain ⟨v, -, hv⟩ := exists_of_mem hitems hitem
    exact ih item hitem hv
  | map entries ih =>
    obtain _ | _ | _ | ⟨hcell, hwell, hkeys, hitems⟩ := h
    refine .map (hkeys ▸ hwell.nodup) fun item hitem => ?_
    obtain ⟨v, -, hv⟩ := exists_of_mem hitems hitem
    exact ih item hitem hv

end Holds

/-! ## Containers around data -/

variable {s : Store}

theorem elements_eq {id : Nat} {elems : Array Value} (h : s.arrays[id]? = some elems) :
    s.elements id = elems := by
  rw [elements, Array.getD_eq_getD_getElem?, h, Option.getD_some]

theorem members_eq {id : Nat} {members : Members} (h : s.objects[id]? = some members) :
    s.members id = members := by
  rw [Store.members, Array.getD_eq_getD_getElem?, h, Option.getD_some]

theorem array_mem_of_cell {id : Nat} {elems : Array Value} (h : s.arrays[id]? = some elems) :
    .array id ∈ s.containerList := by
  obtain ⟨hid, -⟩ := Array.getElem?_eq_some_iff.mp h
  exact List.mem_append_left _ (List.mem_map_of_mem (List.mem_range.mpr hid))

theorem object_mem_of_cell {id : Nat} {members : Members} (h : s.objects[id]? = some members) :
    .object id ∈ s.containerList := by
  obtain ⟨hid, -⟩ := Array.getElem?_eq_some_iff.mp h
  exact List.mem_append_right _ (List.mem_map_of_mem (List.mem_range.mpr hid))

/-- Containers around data, which hold data of a greater size. -/
def Above (s : Store) (path : List Value) (d : Data) : Prop :=
  ∀ v ∈ path, ∃ around, s.Holds v around ∧ sizeOf d < sizeOf around

namespace Holds

variable {v : Value} {d : Data} {path : List Value}

/-- No value is inside itself. -/
theorem notMem_of_above (h : s.Holds v d) (habove : s.Above path d) : v ∉ path := by
  intro hmem
  obtain ⟨around, hv, hlt⟩ := habove v hmem
  rw [h.unique hv] at hlt
  exact Nat.lt_irrefl _ hlt

theorem above_cons (h : s.Holds v d) (habove : s.Above path d) {item : Data}
    (hlt : sizeOf item < sizeOf d) : s.Above (v :: path) item := by
  refine List.forall_mem_cons.mpr ⟨⟨d, h, hlt⟩, fun w hw => ?_⟩
  obtain ⟨around, hholds, hsize⟩ := habove w hw
  exact ⟨around, hholds, hlt.trans hsize⟩

end Holds

end Store

end ExprLang
