import ExprLang.Proofs.MapOrder
import ExprLang.Proofs.Rendering
import ExprLang.Proofs.WellFormed

/-!
# The texts of keys

The keys of a map may be data of any kind, and a key that is a container has to be converted before
it has a text. Where its containers are kept depends on the store, and its text does not: raw data
are converted alike in all stores (`HostData.toValue_linked`), so that a key has the text that it
has on its own (`HostData.keyText_of_toValue`).
-/

namespace ExprLang

namespace HostData

/-! ## Raw data -/

theorem mem_valuesOfItems {items : List HostData} {item : HostData} (h : item ∈ items) :
    item.values ⊆ valuesOfItems items := by
  induction items with
  | nil => cases h
  | cons first items ih =>
    rw [valuesOfItems]
    rcases List.mem_cons.mp h with rfl | hmem
    · exact List.subset_append_left _ _
    · exact List.subset_append_of_subset_right _ (ih hmem)

theorem mem_valuesOfEntries {entries : List (Text × HostData)} {entry : Text × HostData}
    (h : entry ∈ entries) : entry.2.values ⊆ valuesOfEntries entries := by
  induction entries with
  | nil => cases h
  | cons first entries ih =>
    rw [valuesOfEntries]
    rcases List.mem_cons.mp h with rfl | hmem
    · exact List.subset_append_left _ _
    · exact List.subset_append_of_subset_right _ (ih hmem)

theorem mem_valuesOfPairs {entries : List (HostData × HostData)} {entry : HostData × HostData}
    (h : entry ∈ entries) :
    entry.1.values ⊆ valuesOfPairs entries ∧ entry.2.values ⊆ valuesOfPairs entries := by
  induction entries with
  | nil => cases h
  | cons first entries ih =>
    rw [valuesOfPairs]
    rcases List.mem_cons.mp h with rfl | hmem
    · exact ⟨List.subset_append_of_subset_left _ (List.subset_append_left _ _),
        List.subset_append_of_subset_left _ (List.subset_append_right _ _)⟩
    · exact ⟨List.subset_append_of_subset_right _ (ih hmem).1,
        List.subset_append_of_subset_right _ (ih hmem).2⟩

theorem sizeOf_lt_pointer (target : HostData) : sizeOf target < sizeOf (pointer target) := by
  rw [pointer.sizeOf_spec]
  omega

theorem sizeOf_lt_of_mem_list {items : List HostData} {item : HostData} (h : item ∈ items) :
    sizeOf item < sizeOf (list items) := by
  have hlt := List.sizeOf_lt_of_mem h
  rw [list.sizeOf_spec]
  omega

theorem sizeOf_lt_of_mem_map {entries : List (Text × HostData)} {entry : Text × HostData}
    (h : entry ∈ entries) : sizeOf entry.2 < sizeOf (map entries) := by
  have hlt := List.sizeOf_lt_of_mem h
  obtain ⟨key, x⟩ := entry
  rw [Prod.mk.sizeOf_spec] at hlt
  rw [map.sizeOf_spec]
  show sizeOf x < _
  omega

theorem sizeOf_lt_of_mem_keyedMap {entries : List (HostData × HostData)}
    {entry : HostData × HostData} (h : entry ∈ entries) :
    sizeOf entry.1 < sizeOf (keyedMap entries) ∧ sizeOf entry.2 < sizeOf (keyedMap entries) := by
  have hlt := List.sizeOf_lt_of_mem h
  obtain ⟨key, x⟩ := entry
  rw [Prod.mk.sizeOf_spec] at hlt
  rw [keyedMap.sizeOf_spec]
  show sizeOf key < _ ∧ sizeOf x < _
  omega

/-- What holds of raw data if it holds of all the data in them holds of all raw data. -/
@[elab_as_elim]
theorem rawInduct {motive : HostData → Prop} (scalar : ∀ x, x.isScalar = true → motive x)
    (native : ∀ f, motive (.native f))
    (pointer : ∀ target, motive target → motive (.pointer target))
    (list : ∀ items, (∀ item ∈ items, motive item) → motive (.list items))
    (map : ∀ entries, (∀ entry ∈ entries, motive entry.2) → motive (.map entries))
    (keyedMap : ∀ entries, (∀ entry ∈ entries, entry.1.values = []) →
      (∀ entry ∈ entries, motive entry.1 ∧ motive entry.2) → motive (.keyedMap entries)) :
    ∀ x, x.values = [] → motive x
  | .unsupported _, _ | .bool _, _ | .int _, _ | .unsigned _, _ | .big _, _ | .double _, _
  | .text _, _ | .number _, _ | .nilPointer _, _ => scalar _ rfl
  | .native f, _ => native f
  | .pointer target, h =>
    pointer target (rawInduct scalar native pointer list map keyedMap target h)
  | .value v, h => absurd h (List.cons_ne_nil _ _)
  | .list items, h => list items fun item hitem =>
    rawInduct scalar native pointer list map keyedMap item
      (List.subset_nil.mp (h ▸ mem_valuesOfItems hitem))
  | .map entries, h => map entries fun entry hentry =>
    rawInduct scalar native pointer list map keyedMap entry.2
      (List.subset_nil.mp (h ▸ mem_valuesOfEntries hentry))
  | .keyedMap entries, h =>
    have hkeys (entry) (hentry : entry ∈ entries) : entry.1.values = [] :=
      List.subset_nil.mp (h ▸ (mem_valuesOfPairs hentry).1)
    keyedMap entries hkeys fun entry hentry =>
      ⟨rawInduct scalar native pointer list map keyedMap entry.1 (hkeys entry hentry),
      rawInduct scalar native pointer list map keyedMap entry.2
        (List.subset_nil.mp (h ▸ (mem_valuesOfPairs hentry).2))⟩
termination_by x => sizeOf x
decreasing_by
  · exact sizeOf_lt_pointer target
  · exact sizeOf_lt_of_mem_list hitem
  · exact sizeOf_lt_of_mem_map hentry
  · exact (sizeOf_lt_of_mem_keyedMap hentry).1
  · exact (sizeOf_lt_of_mem_keyedMap hentry).2

end HostData

/-! ## Constructions in linked stores -/

/-- Two constructions do the same in linked stores: they fail for one reason, or they succeed with
    related results and leave the stores linked. -/
def Build.Linked {α β : Type} (L : Links) (R : α → β → Prop) (x : Build α) (y : Build β) : Prop :=
  ∀ s t, s.Linked L (fun _ => True) t →
    (∃ cause, x s = .error cause ∧ y t = .error cause) ∨
      ∃ a s' b t', x s = .ok (a, s') ∧ y t = .ok (b, t') ∧ R a b ∧
        s'.Linked L (fun _ => True) t'

namespace Build

theorem bind_of_error {α β : Type} {x : Build α} {f : α → Build β} {s : Store} {cause : Cause}
    (h : x s = .error cause) : (x >>= f) s = .error cause := by
  show Build.andThen x f s = _
  rw [Build.andThen, h]

namespace Linked

variable {α α' β β' : Type} {L : Links} {R : α → α' → Prop} {Q : β → β' → Prop}

theorem pure {a : α} {b : α'} (h : R a b) : Build.Linked L R (Pure.pure a) (Pure.pure b) := by
  intro s t hst
  exact .inr ⟨a, s, b, t, rfl, rfl, h, hst⟩

theorem bind {x : Build α} {y : Build α'} {f : α → Build β} {g : α' → Build β'}
    (hx : x.Linked L R y) (hf : ∀ a b, R a b → (f a).Linked L Q (g b)) :
    (x >>= f).Linked L Q (y >>= g) := by
  intro s t hst
  rcases hx s t hst with ⟨cause, hs, ht⟩ | ⟨a, s', b, t', hs, ht, hR, hst'⟩
  · exact .inl ⟨cause, bind_of_error hs, bind_of_error ht⟩
  · rw [bind_of_ok hs, bind_of_ok ht]
    exact hf a b hR s' t' hst'

theorem of {f : Store → α × Store} {g : Store → α' × Store}
    (h : ∀ s t, s.Linked L (fun _ => True) t →
      (f s).2.Linked L (fun _ => True) (g t).2 ∧ R (f s).1 (g t).1) :
    (Build.of f).Linked L R (Build.of g) := by
  intro s t hst
  obtain ⟨hlinked, hR⟩ := h s t hst
  exact .inr ⟨_, _, _, _, rfl, rfl, hR, hlinked⟩

theorem sequence {entries : List (Text × Build Value)}
    (h : ∀ entry ∈ entries, entry.2.Linked L (Value.Linked L) entry.2) :
    (Build.sequence entries).Linked L
      (EntriesLinked L) (Build.sequence entries) := by
  induction entries with
  | nil => exact pure .nil
  | cons entry entries ih =>
    obtain ⟨key, x⟩ := entry
    obtain ⟨hx, hrest⟩ := List.forall_mem_cons.mp h
    rw [Build.sequence]
    refine bind hx fun v w hvw => bind (ih hrest) fun vs ws hvs => pure ?_
    exact .cons ⟨rfl, hvw⟩ hvs

theorem object (hL : L.Ordered) {entries : List (Text × Build Value)}
    (h : ∀ entry ∈ entries, entry.2.Linked L (Value.Linked L) entry.2) :
    (Build.object entries).Linked L (Value.Linked L) (Build.object entries) := by
  have hsorted := fun entry hentry => h entry (mem_sortedByKey.mp hentry)
  refine bind (sequence hsorted) fun vs ws hvs => of fun s t hst => ?_
  exact hst.newObject hL (Members.Linked.ofList hvs)

end Linked

end Build

namespace HostData

section Linked

variable {L : Links}

theorem linked_of_isScalar {x : HostData} (h : x.isScalar = true) :
    x.toValue.Linked L (Value.Linked L) x.toValue := by
  intro s t hst
  rcases toValue_of_isScalar h with ⟨cause, hx⟩ | ⟨v, hv, hx⟩
  · exact .inl ⟨cause, hx s, hx t⟩
  · refine .inr ⟨v, s, v, t, hx s, hx t, ?_, hst⟩
    cases v with
    | int n => exact .int n
    | double x => exact .double x
    | text x => exact .text x
    | _ => cases hv

theorem toValues_linked {items : List HostData}
    (h : ∀ item ∈ items, item.toValue.Linked L (Value.Linked L) item.toValue) :
    (toValues items).Linked L (Value.AllLinked L) (toValues items) := by
  induction items with
  | nil => exact .pure .nil
  | cons item items ih =>
    obtain ⟨hitem, hitems⟩ := List.forall_mem_cons.mp h
    rw [toValues]
    exact .bind hitem fun v w hvw => .bind (ih hitems) fun vs ws hvs => .pure (.cons hvw hvs)

variable (hL : L.Ordered)
include hL

/-- The texts of keys are the same, and what it takes to convert the entries does not depend on
    them. -/
theorem keyTexts_linked {entries : List (HostData × HostData)}
    (h : ∀ entry ∈ entries, entry.1.toValue.Linked L (Value.Linked L) entry.1.toValue ∧
      entry.2.toValue.Linked L (Value.Linked L) entry.2.toValue) :
    (keyTexts entries).Linked L
      (fun keyed keyed' => keyed = keyed' ∧
        ∀ entry ∈ keyed, entry.2.Linked L (Value.Linked L) entry.2) (keyTexts entries) := by
  induction entries with
  | nil => exact .pure ⟨rfl, List.forall_mem_nil _⟩
  | cons entry entries ih =>
    obtain ⟨key, x⟩ := entry
    obtain ⟨⟨hkey, hx⟩, hrest⟩ := List.forall_mem_cons.mp h
    have htext (k k' : Value) (hk : k.Linked L k') :
        (Build.of fun s => (s.text k, s)).Linked L Eq (Build.of fun s => (s.text k', s)) :=
      .of fun s t hst => ⟨hst, hst.text_eq hL hk⟩
    rw [keyTexts]
    refine .bind hkey fun k k' hk => .bind (htext k k' hk) fun text text' heq => ?_
    refine .bind (ih hrest) fun keyed keyed' hkeyed => .pure ⟨?_, ?_⟩
    · rw [heq, hkeyed.1]
    · exact List.forall_mem_cons.mpr ⟨hx, hkeyed.2⟩

/-- Raw data are converted alike in linked stores. -/
theorem toValue_linked {x : HostData} (hx : x.values = []) :
    x.toValue.Linked L (Value.Linked L) x.toValue := by
  refine rawInduct ?scalar ?native ?pointer ?list ?map ?keyedMap x hx
  case scalar => exact fun x h => linked_of_isScalar h
  case native =>
    intro f
    rw [toValue]
    exact .of fun s t hst => hst.newFunction hL (.primitive _) trivial
  case pointer =>
    intro target ih
    rwa [toValue]
  case list =>
    intro items ih
    rw [toValue]
    refine .bind (toValues_linked ih) fun vs ws hvs => .of fun s t hst => ?_
    exact hst.newArray hL (by simpa using hvs)
  case map =>
    intro entries ih
    rw [toValue, entryValues_eq_map]
    refine .object hL fun entry hentry => ?_
    obtain ⟨source, hsource, rfl⟩ := List.mem_map.mp hentry
    exact ih source hsource
  case keyedMap =>
    intro entries _ ih
    rw [toValue]
    refine .bind (keyTexts_linked hL ih) fun keyed keyed' hkeyed => ?_
    rw [← hkeyed.1]
    exact .object hL hkeyed.2

end Linked

/-- A store beside one without cells: only what is added from now on is linked. -/
theorem linked_empty (s : Store) :
    s.Linked (.across (fun _ => False) s {}) (fun _ => True) {} :=
  Store.linked_across (fun _ _ h => h.elim) (fun _ h => h.elim) (fun _ h => h.elim)
    (fun _ _ h => h.elim)

/-- Whatever store a key is converted in, its text is the one that it has on its own. -/
theorem keyText_of_toValue {key : HostData} (hkey : key.values = []) {s t : Store} {v : Value}
    (h : key.toValue s = .ok (v, t)) : keyText key = .ok (t.text v) := by
  have hL := Links.across_ordered (fun _ => False) s {}
  rcases toValue_linked hL hkey s {} (linked_empty s) with
    ⟨cause, hs, -⟩ | ⟨a, s', b, t', hs, ht, hab, hst⟩
  · rw [h] at hs
    cases hs
  · rw [h] at hs
    cases hs
    rw [keyText, ht, hst.text_eq hL hab]
    rfl

end HostData

end ExprLang
