import ExprLang.Proofs.Documents
import ExprLang.Proofs.Encoding
import ExprLang.Proofs.KeyTexts

/-!
# The order of keys

The objects that are made of raw data stand where the data have maps, and their keys are the texts
of the map's keys, each of them once and in ascending order (`HostData.keys_ascending`). This is so
for maps at every depth, for keys of every kind, and for all that is read from a document. The order
is that of the keys' bytes, so that keys of characters are in the order of their code points.
-/

namespace ExprLang

open Relation (ReflTransGen)

namespace HostData

/-- Whether data are a map. -/
def isMap : HostData → Bool
  | .map _ | .keyedMap _ => true
  | _ => false

/-- A map has an entry whose key is known by a text. -/
inductive Entry : HostData → Text → HostData → Prop
  | map {entries : List (Text × HostData)} {key : Text} {x : HostData}
    (h : (key, x) ∈ entries) : Entry (.map entries) key x
  | keyedMap {entries : List (HostData × HostData)} {key x : HostData} {text : Text}
    (h : (key, x) ∈ entries) (htext : keyText key = .ok text) : Entry (.keyedMap entries) text x

/-- Data are an item of a list, stand under a key of a map or are pointed to. -/
inductive Part : HostData → HostData → Prop
  | target {x : HostData} : Part (.pointer x) x
  | item {items : List HostData} {x : HostData} (h : x ∈ items) : Part (.list items) x
  | entry {m x : HostData} {key : Text} (h : m.Entry key x) : Part m x

end HostData

namespace Store

/-- A value is what data were made into: scalars are converted, the elements of an array come from
    the items of a list in their order, and the members of an object from entries of a map, whose
    keys are ascending and are known by the texts of the map's keys. A pointer becomes what its
    target does. -/
inductive Mirrors (s : Store) : HostData → Value → Prop
  | scalar {x : HostData} {v : Value} (hv : v.isScalar = true) (h : x.toValue {} = .ok (v, {})) :
    Mirrors s x v
  | function (f : Native) (id : Nat) : Mirrors s (.native f) (.function id)
  | pointer {x : HostData} {v : Value} (h : Mirrors s x v) : Mirrors s (.pointer x) v
  | array {items : List HostData} {id : Nat} {elems : Array Value}
    (hcell : s.arrays[id]? = some elems) (hlength : items.length = elems.toList.length)
    (hitems : ∀ x v, (x, v) ∈ items.zip elems.toList → Mirrors s x v) :
    Mirrors s (.list items) (.array id)
  | object {m : HostData} {id : Nat} {members : Members} (source : Text × Value → HostData)
    (hmap : m.isMap = true) (hcell : s.objects[id]? = some members) (hwell : members.WellFormed)
    (hascending : Ascending members.keys)
    (hkeys : ∀ key, key ∈ members.keys ↔ ∃ x, m.Entry key x)
    (hsource : ∀ entry ∈ members.entries, m.Entry entry.1 (source entry))
    (hmembers : ∀ entry ∈ members.entries, Mirrors s (source entry) entry.2) :
    Mirrors s m (.object id)

namespace Mirrors

variable {s t : Store} {x : HostData} {v w : Value}

theorem mono (h : s.Mirrors x v) (hst : s.Extends t) : t.Mirrors x v := by
  induction h with
  | scalar hv h => exact .scalar hv h
  | function f id => exact .function f id
  | pointer _ ih => exact .pointer ih
  | array hcell hlength _ ih => exact .array (hst.arrays hcell) hlength ih
  | object source hmap hcell hwell hascending hkeys hsource _ ih =>
    exact .object source hmap (hst.objects hcell) hwell hascending hkeys hsource ih

/-- A part of a value comes from a part of the data. -/
theorem part (h : s.Mirrors x v) (hw : s.Part v w) :
    ∃ y, ReflTransGen HostData.Part x y ∧ s.Mirrors y w := by
  induction h with
  | scalar hv => cases hw <;> cases hv
  | function f id => cases hw
  | pointer _ ih =>
    obtain ⟨y, hy, hmirrors⟩ := ih hw
    exact ⟨y, .head .target hy, hmirrors⟩
  | @array items _ elems hcell hlength hitems =>
    cases hw with
    | element hmem =>
      rw [elements_eq hcell] at hmem
      obtain ⟨i, hi, rfl⟩ := List.getElem_of_mem hmem
      have hpair : (items[i], elems.toList[i]) ∈ items.zip elems.toList := by
        rw [← List.getElem_zip (h := by rw [List.length_zip]; omega)]
        exact List.getElem_mem _
      exact ⟨items[i], .single (.item (List.getElem_mem _)), hitems _ _ hpair⟩
  | object source hmap hcell hwell hascending hkeys hsource hmembers =>
    cases hw with
    | @member _ key _ hmem =>
      rw [members_eq hcell] at hmem
      exact ⟨source (key, w), .single (.entry (hsource _ hmem)), hmembers _ hmem⟩

theorem reaches (h : s.Mirrors x v) (hw : ReflTransGen s.Part v w) :
    ∃ y, ReflTransGen HostData.Part x y ∧ s.Mirrors y w := by
  induction hw with
  | refl => exact ⟨x, .refl, h⟩
  | tail _ hpart ih =>
    obtain ⟨y, hy, hmirrors⟩ := ih
    obtain ⟨z, hz, hmirrors'⟩ := hmirrors.part hpart
    exact ⟨z, hy.trans hz, hmirrors'⟩

end Mirrors

end Store

/-! ## Members in order -/

namespace Members

theorem mem_keys_put {m : Members} (h : m.WellFormed) {key k : Text} {v : Value} :
    k ∈ (m.put key v).keys ↔ k ∈ m.keys ∨ k = key := by
  rw [h.keys_put]
  split
  · next hmem =>
    refine ⟨.inl, ?_⟩
    rintro (h | rfl)
    · exact h
    · exact hmem
  · rw [List.mem_append, List.mem_singleton]

theorem mem_keys_putAll {m : Members} (h : m.WellFormed) {entries : List (Text × Value)}
    {k : Text} : k ∈ (m.putAll entries).keys ↔ k ∈ m.keys ∨ k ∈ entries.map Prod.fst := by
  induction entries generalizing m with
  | nil => simp [putAll]
  | cons entry entries ih =>
    have hrest : k ∈ (m.putAll (entry :: entries)).keys ↔ _ := ih (h.put entry.1 entry.2)
    rw [hrest, mem_keys_put h, List.map_cons, List.mem_cons, or_assoc]

theorem mem_vals_putAll {m : Members} {entries : List (Text × Value)} {entry : Text × Value}
    (h : entry ∈ (m.putAll entries).vals) : entry ∈ m.vals ∨ entry ∈ entries := by
  induction entries generalizing m with
  | nil => exact .inl h
  | cons first entries ih =>
    rcases ih (m := m.put first.1 first.2) h with hput | hrest
    · rcases mem_vals_put hput with heq | hm
      · exact .inr (List.mem_cons.mpr (.inl heq))
      · exact .inl hm
    · exact .inr (List.mem_cons_of_mem _ hrest)

theorem mem_of_mem_ofList {entries : List (Text × Value)} {entry : Text × Value}
    (h : entry ∈ (ofList entries).entries) : entry ∈ entries :=
  (mem_vals_putAll (mem_vals_of_mem_entries h)).resolve_left List.not_mem_nil

/-- Entries that are written in the order of their keys are kept in it, and a key that comes again
    keeps its place. -/
theorem ascending_putAll {m : Members} (hwell : m.WellFormed) {entries : List (Text × Value)}
    (hm : Ascending m.keys) (hsorted : entries.Pairwise fun a b => a.1 ≤ b.1)
    (hbelow : ∀ key ∈ m.keys, ∀ entry ∈ entries, key ≤ entry.1) :
    Ascending (m.putAll entries).keys := by
  induction entries generalizing m with
  | nil => exact hm
  | cons entry entries ih =>
    obtain ⟨hfirst, hrest⟩ := List.pairwise_cons.mp hsorted
    apply ih (hwell.put entry.1 entry.2) _ hrest
    · intro key hkey other hother
      rcases (mem_keys_put hwell).mp hkey with hkey | rfl
      · exact hbelow key hkey other (List.mem_cons_of_mem _ hother)
      · exact hfirst other hother
    · rw [hwell.keys_put]
      split
      · exact hm
      · next hnew =>
        refine List.pairwise_append.mpr ⟨hm, List.pairwise_singleton _ _, ?_⟩
        intro key hkey last hlast
        obtain rfl := List.mem_singleton.mp hlast
        apply Text.lt_of_le_of_ne (hbelow key hkey entry List.mem_cons_self)
        rintro rfl
        exact hnew hkey

end Members

/-! ## Conversion -/

namespace Build

theorem bind_eq_ok {α β : Type} {x : Build α} {f : α → Build β} {s t : Store} {b : β}
    (h : (x >>= f) s = .ok (b, t)) : ∃ a u, x s = .ok (a, u) ∧ f a u = .ok (b, t) := by
  change Build.andThen x f s = _ at h
  rw [Build.andThen] at h
  split at h
  · next a u hx => exact ⟨a, u, hx, h⟩
  · cases h

end Build

namespace HostData

/-- Whenever a construction succeeds, it adds a value that is made of the data. -/
def MadeBy (x : HostData) (b : Build Value) : Prop :=
  ∀ s v t, b s = .ok (v, t) → s.Extends t ∧ t.Mirrors x v

theorem madeBy_of_isScalar {x : HostData} (h : x.isScalar = true) : x.MadeBy x.toValue := by
  intro s v t hv
  rcases toValue_of_isScalar h with ⟨cause, hx⟩ | ⟨w, hw, hx⟩
  · rw [hx] at hv
    cases hv
  · rw [hx] at hv
    cases hv
    exact ⟨.refl s, .scalar hw (hx {})⟩

theorem toValues_madeBy {items : List HostData} (h : ∀ item ∈ items, item.MadeBy item.toValue)
    {s t : Store} {vs : List Value} (hvs : toValues items s = .ok (vs, t)) :
    s.Extends t ∧ List.Forall₂ t.Mirrors items vs := by
  induction items generalizing s vs with
  | nil =>
    cases hvs
    exact ⟨.refl _, .nil⟩
  | cons item items ih =>
    obtain ⟨hitem, hitems⟩ := List.forall_mem_cons.mp h
    rw [toValues] at hvs
    obtain ⟨v, u, hv, hvs⟩ := Build.bind_eq_ok hvs
    obtain ⟨ws, _, hws, hend⟩ := Build.bind_eq_ok hvs
    cases hend
    obtain ⟨hsu, hmirrors⟩ := hitem s v u hv
    obtain ⟨hut, hall⟩ := ih hitems hws
    exact ⟨hsu.trans hut, .cons (hmirrors.mono hut) hall⟩

/-- Entries of a map, with what it takes to make their values. -/
def EntriesMadeBy (m : HostData) (entries : List (Text × Build Value)) : Prop :=
  ∀ entry ∈ entries, ∃ x, m.Entry entry.1 x ∧ x.MadeBy entry.2

theorem sequence_madeBy {m : HostData} {entries : List (Text × Build Value)}
    (h : m.EntriesMadeBy entries) {s t : Store} {vs : List (Text × Value)}
    (hvs : Build.sequence entries s = .ok (vs, t)) :
    s.Extends t ∧ vs.map Prod.fst = entries.map Prod.fst ∧
      ∀ entry ∈ vs, ∃ x, m.Entry entry.1 x ∧ t.Mirrors x entry.2 := by
  induction entries generalizing s vs with
  | nil =>
    cases hvs
    exact ⟨.refl _, rfl, List.forall_mem_nil _⟩
  | cons entry entries ih =>
    obtain ⟨key, b⟩ := entry
    obtain ⟨⟨x, hx, hb⟩, hrest⟩ := List.forall_mem_cons.mp h
    rw [Build.sequence] at hvs
    obtain ⟨v, u, hv, hvs⟩ := Build.bind_eq_ok hvs
    obtain ⟨ws, _, hws, hend⟩ := Build.bind_eq_ok hvs
    cases hend
    obtain ⟨hsu, hmirrors⟩ := hb s v u hv
    obtain ⟨hut, hkeys, hall⟩ := ih hrest hws
    refine ⟨hsu.trans hut, ?_, List.forall_mem_cons.mpr ⟨⟨x, hx, hmirrors.mono hut⟩, hall⟩⟩
    rw [List.map_cons, List.map_cons, hkeys]

/-- An object of all entries of a map. -/
theorem object_madeBy {m : HostData} (hmap : m.isMap = true)
    {entries : List (Text × Build Value)} (h : m.EntriesMadeBy entries)
    (hkeys : ∀ key x, m.Entry key x → key ∈ entries.map Prod.fst) :
    m.MadeBy (Build.object entries) := by
  intro s v t hv
  obtain ⟨vs, u, hvs, hend⟩ := Build.bind_eq_ok hv
  cases hend
  have hperm := sortedByKey_perm entries
  obtain ⟨hsu, hnames, hall⟩ :=
    sequence_madeBy (fun entry hentry => h entry (hperm.subset hentry)) hvs
  have hsorted : vs.Pairwise fun a b => a.1 ≤ b.1 := by
    have := List.pairwise_map.mpr (pairwise_sortedByKey entries)
    rw [← hnames] at this
    exact List.pairwise_map.mp this
  have hut := u.newObject_extends (Members.ofList vs)
  have hmembers : ∀ entry ∈ (Members.ofList vs).entries,
      ∃ x, m.Entry entry.1 x ∧ (u.newObject (Members.ofList vs)).2.Mirrors x entry.2 := by
    intro entry hentry
    obtain ⟨x, hx, hmirrors⟩ := hall entry (Members.mem_of_mem_ofList hentry)
    exact ⟨x, hx, hmirrors.mono hut⟩
  choose! source hsource hmirrors using hmembers
  refine ⟨hsu.trans hut,
    .object source hmap Array.getElem?_push_size (.ofList vs) ?_ ?_ hsource hmirrors⟩
  · exact Members.ascending_putAll .empty .nil hsorted (List.forall_mem_nil _)
  · intro key
    have hmem : key ∈ (Members.ofList vs).keys ↔ key ∈ entries.map Prod.fst := by
      rw [Members.ofList, Members.mem_keys_putAll .empty, hnames, (hperm.map Prod.fst).mem_iff]
      exact or_iff_right List.not_mem_nil
    rw [hmem]
    constructor
    · intro hkey
      obtain ⟨entry, hentry, rfl⟩ := List.mem_map.mp hkey
      obtain ⟨x, hx, -⟩ := h entry hentry
      exact ⟨x, hx⟩
    · rintro ⟨x, hx⟩
      exact hkeys key x hx

/-- A key that is converted has a text, which it is known by. -/
theorem keyTexts_madeBy {entries : List (HostData × HostData)}
    (hraw : ∀ entry ∈ entries, entry.1.values = [])
    (h : ∀ entry ∈ entries, entry.1.MadeBy entry.1.toValue)
    {s t : Store} {keyed : List (Text × Build Value)}
    (hkeyed : keyTexts entries s = .ok (keyed, t)) :
    s.Extends t ∧ keyed = entries.map (fun entry => (textOf entry.1, entry.2.toValue)) ∧
      ∀ entry ∈ entries, keyText entry.1 = .ok (textOf entry.1) := by
  induction entries generalizing s keyed with
  | nil =>
    cases hkeyed
    exact ⟨.refl _, rfl, List.forall_mem_nil _⟩
  | cons entry entries ih =>
    obtain ⟨key, x⟩ := entry
    obtain ⟨hkey, hrest⟩ := List.forall_mem_cons.mp h
    obtain ⟨hrawKey, hrawRest⟩ := List.forall_mem_cons.mp hraw
    rw [keyTexts] at hkeyed
    obtain ⟨k, u, hk, hkeyed⟩ := Build.bind_eq_ok hkeyed
    obtain ⟨text, _, htext, hkeyed⟩ := Build.bind_eq_ok hkeyed
    cases htext
    obtain ⟨others, _, hothers, hend⟩ := Build.bind_eq_ok hkeyed
    cases hend
    obtain ⟨hsu, -⟩ := hkey s k u hk
    obtain ⟨hut, rfl, htexts⟩ := ih hrawRest hrest hothers
    have htext : keyText key = .ok (u.text k) := keyText_of_toValue hrawKey hk
    have heq := textOf_eq htext
    refine ⟨hsu.trans hut, ?_, List.forall_mem_cons.mpr ⟨?_, htexts⟩⟩
    · rw [List.map_cons, heq]
    · rw [htext, heq]

/-- Raw data are made into values of their shape. -/
theorem toValue_madeBy {x : HostData} (hx : x.values = []) : x.MadeBy x.toValue := by
  refine rawInduct ?scalar ?native ?pointer ?list ?map ?keyedMap x hx
  case scalar => exact fun x h => madeBy_of_isScalar h
  case native =>
    intro f s v t h
    rw [toValue] at h
    cases h
    exact ⟨⟨id, id⟩, .function f _⟩
  case pointer =>
    intro target ih s v t h
    rw [toValue] at h
    obtain ⟨hst, hmirrors⟩ := ih s v t h
    exact ⟨hst, .pointer hmirrors⟩
  case list =>
    intro items ih s v t h
    rw [toValue] at h
    obtain ⟨vs, u, hvs, hend⟩ := Build.bind_eq_ok h
    cases hend
    obtain ⟨hsu, hall⟩ := toValues_madeBy ih hvs
    have hut := u.newArray_extends vs.toArray
    refine ⟨hsu.trans hut, .array Array.getElem?_push_size hall.length_eq ?_⟩
    intro y w hyw
    exact ((List.forall₂_iff_zip.mp hall).2 hyw).mono hut
  case map =>
    intro entries ih
    rw [toValue, entryValues_eq_map]
    refine object_madeBy rfl ?_ ?_
    · intro entry hentry
      obtain ⟨⟨key, y⟩, hy, rfl⟩ := List.mem_map.mp hentry
      exact ⟨y, .map hy, ih _ hy⟩
    · intro key y hentry
      cases hentry with
      | map hy => exact List.mem_map_of_mem (List.mem_map_of_mem hy)
  case keyedMap =>
    intro entries hraw ih s v t h
    rw [toValue] at h
    obtain ⟨keyed, u, hkeyed, hobject⟩ := Build.bind_eq_ok h
    obtain ⟨hsu, rfl, htexts⟩ :=
      keyTexts_madeBy hraw (fun entry hentry => (ih entry hentry).1) hkeyed
    have hmade : (keyedMap entries).MadeBy
        (Build.object (entries.map fun entry => (textOf entry.1, entry.2.toValue))) := by
      refine object_madeBy rfl ?_ ?_
      · intro entry hentry
        obtain ⟨⟨key, y⟩, hy, rfl⟩ := List.mem_map.mp hentry
        exact ⟨y, .keyedMap hy (htexts _ hy), (ih _ hy).2⟩
      · intro text y hentry
        cases hentry with
        | keyedMap hy htext =>
          rw [← textOf_eq htext]
          exact List.mem_map_of_mem (List.mem_map_of_mem hy)
    obtain ⟨hut, hmirrors⟩ := hmade u v t hobject
    exact ⟨hsu.trans hut, hmirrors⟩

end HostData

/-! ## Data that are accepted -/

/-- A construction that succeeds in every store, with a result of a kind. -/
def Build.Succeeds {α : Type} (x : Build α) (Q : α → Prop) : Prop :=
  ∀ s, ∃ a t, x s = .ok (a, t) ∧ Q a

namespace Build.Succeeds

variable {α β : Type} {P : α → Prop} {Q : β → Prop}

theorem pure {b : β} (h : Q b) : Build.Succeeds (Pure.pure b) Q := fun s => ⟨b, s, rfl, h⟩

theorem of {f : Store → β × Store} (h : ∀ s, Q (f s).1) : (Build.of f).Succeeds Q :=
  fun s => ⟨_, _, rfl, h s⟩

theorem bind {x : Build α} {f : α → Build β} (hx : x.Succeeds P)
    (hf : ∀ a, P a → (f a).Succeeds Q) : (x >>= f).Succeeds Q := by
  intro s
  obtain ⟨a, t, ha, hP⟩ := hx s
  rw [bind_of_ok ha]
  exact hf a hP t

theorem sequence {entries : List (Text × Build Value)}
    (h : ∀ entry ∈ entries, entry.2.Succeeds fun _ => True) :
    (Build.sequence entries).Succeeds fun _ => True := by
  induction entries with
  | nil => exact pure trivial
  | cons entry entries ih =>
    obtain ⟨key, x⟩ := entry
    obtain ⟨hx, hrest⟩ := List.forall_mem_cons.mp h
    rw [Build.sequence]
    exact bind hx fun v _ => bind (ih hrest) fun vs _ => pure trivial

theorem object {entries : List (Text × Build Value)}
    (h : ∀ entry ∈ entries, entry.2.Succeeds fun _ => True) :
    (Build.object entries).Succeeds fun _ => True := by
  have hsorted := fun entry hentry => h entry (mem_sortedByKey.mp hentry)
  exact bind (sequence hsorted) fun vs _ => of fun _ => trivial

end Build.Succeeds

namespace HostData

mutual

/-- Whether all scalars in data have values. -/
def isAccepted : HostData → Bool
  | .unsupported _ | .nilPointer _ => false
  | .number written => (numberValue written).isOk
  | .pointer target => target.isAccepted
  | .list items => itemsAccepted items
  | .map entries => entriesAccepted entries
  | .keyedMap entries => pairsAccepted entries
  | _ => true

@[inherit_doc isAccepted]
def itemsAccepted : List HostData → Bool
  | [] => true
  | item :: items => item.isAccepted && itemsAccepted items

@[inherit_doc isAccepted]
def entriesAccepted : List (Text × HostData) → Bool
  | [] => true
  | (_, data) :: rest => data.isAccepted && entriesAccepted rest

@[inherit_doc isAccepted]
def pairsAccepted : List (HostData × HostData) → Bool
  | [] => true
  | (key, data) :: rest => key.isAccepted && data.isAccepted && pairsAccepted rest

end

mutual

/-- Data are converted if all scalars in them are. -/
theorem toValue_succeeds : ∀ x : HostData, x.isAccepted = true → x.toValue.Succeeds fun _ => True
  | .bool _, _ | .int _, _ | .unsigned _, _ | .big _, _ | .double _, _ | .text _, _
  | .value _, _ => by
    rw [toValue]
    exact .pure trivial
  | .pointer target, h => by
    rw [toValue]
    exact toValue_succeeds target h
  | .native f, _ => by
    rw [toValue]
    exact .of fun _ => trivial
  | .number written, h => by
    intro s
    rw [isAccepted] at h
    cases hv : numberValue written with
    | ok v => exact ⟨v, s, by rw [toValue, hv], trivial⟩
    | error cause =>
      rw [hv] at h
      cases h
  | .list items, h => by
    rw [toValue]
    exact .bind (toValues_succeeds items h) fun vs _ => .of fun _ => trivial
  | .map entries, h => by
    rw [toValue]
    exact .object (entryValues_succeeds entries h)
  | .keyedMap entries, h => by
    rw [toValue]
    exact .bind (keyTexts_succeeds entries h) fun keyed hkeyed => .object hkeyed

theorem toValues_succeeds : ∀ items : List HostData, itemsAccepted items = true →
    (toValues items).Succeeds fun _ => True
  | [], _ => by
    rw [toValues]
    exact .pure trivial
  | item :: items, h => by
    obtain ⟨hitem, hitems⟩ := Bool.and_eq_true_iff.mp h
    rw [toValues]
    exact .bind (toValue_succeeds item hitem) fun v _ =>
      .bind (toValues_succeeds items hitems) fun vs _ => .pure trivial

theorem entryValues_succeeds : ∀ entries : List (Text × HostData),
    entriesAccepted entries = true →
    ∀ entry ∈ entryValues entries, entry.2.Succeeds fun _ => True
  | [], _ => List.forall_mem_nil _
  | (key, x) :: entries, h => by
    obtain ⟨hx, hentries⟩ := Bool.and_eq_true_iff.mp h
    rw [entryValues]
    exact List.forall_mem_cons.mpr ⟨toValue_succeeds x hx, entryValues_succeeds entries hentries⟩

theorem keyTexts_succeeds : ∀ entries : List (HostData × HostData),
    pairsAccepted entries = true → (keyTexts entries).Succeeds
      fun keyed => ∀ entry ∈ keyed, entry.2.Succeeds fun _ => True
  | [], _ => by
    rw [keyTexts]
    exact .pure (List.forall_mem_nil _)
  | (key, x) :: entries, h => by
    obtain ⟨hboth, hentries⟩ := Bool.and_eq_true_iff.mp h
    obtain ⟨hkey, hx⟩ := Bool.and_eq_true_iff.mp hboth
    rw [keyTexts]
    refine .bind (toValue_succeeds key hkey) fun k _ => ?_
    refine .bind (.of (Q := fun _ => True) fun _ => trivial) fun text _ => ?_
    refine .bind (keyTexts_succeeds entries hentries) fun keyed hkeyed => .pure ?_
    exact List.forall_mem_cons.mpr ⟨toValue_succeeds x hx, hkeyed⟩

end

end HostData

/-! ## Keys at every depth -/

/-- Keys of characters are in the order of the characters' code points. -/
def ByCodePoints (keys : List Text) : Prop :=
  keys.Pairwise fun (a b : Text) => ∀ s s' : String, a = s → b = s' → s < s'

theorem Ascending.byCodePoints {keys : List Text} (h : Ascending keys) : ByCodePoints keys := by
  refine List.Pairwise.imp ?_ h
  rintro _ _ hlt s s' rfl rfl
  exact Text.ofString_lt_ofString.mp hlt

/-- Every object that a value reaches comes from a map that the data reach: its keys are the texts
    of the map's keys, in ascending order, which is the order of their code points. -/
def Store.KeysFrom (s : Store) (x : HostData) (v : Value) : Prop :=
  ∀ id, ReflTransGen s.Part v (.object id) →
    ∃ m, ReflTransGen HostData.Part x m ∧ m.isMap = true ∧ s.Mirrors m (.object id) ∧
      Ascending (s.members id).keys ∧ ByCodePoints (s.members id).keys ∧
      ∀ key, key ∈ (s.members id).keys ↔ ∃ y, m.Entry key y

/-- Behind all pointers, an object comes from a map. -/
theorem Store.Mirrors.object_inv {s : Store} {x : HostData} {v : Value} {id : Nat}
    (h : s.Mirrors x v) (hv : v = .object id) :
    ∃ m, ReflTransGen HostData.Part x m ∧ m.isMap = true ∧ s.Mirrors m (.object id) ∧
      Ascending (s.members id).keys ∧ ∀ key, key ∈ (s.members id).keys ↔ ∃ y, m.Entry key y := by
  induction h with
  | scalar hscalar =>
    subst hv
    cases hscalar
  | function | array => cases hv
  | pointer _ ih =>
    obtain ⟨m, hm, hobject⟩ := ih hv
    exact ⟨m, .head .target hm, hobject⟩
  | @object m _ _ source hmap hcell hwell hascending hkeys hsource hmembers =>
    cases hv
    rw [members_eq hcell]
    exact ⟨m, .refl, hmap, .object source hmap hcell hwell hascending hkeys hsource hmembers,
      hascending, hkeys⟩

theorem Store.Mirrors.keysFrom {s : Store} {x : HostData} {v : Value} (h : s.Mirrors x v) :
    s.KeysFrom x v := by
  intro id hid
  obtain ⟨y, hy, hmirrors⟩ := h.reaches hid
  obtain ⟨m, hm, hmap, hobject, hascending, hkeys⟩ := hmirrors.object_inv rfl
  exact ⟨m, hy.trans hm, hmap, hobject, hascending, hascending.byCodePoints, hkeys⟩

namespace HostData

/-- What raw data are made into. -/
theorem mirrors_keysFrom {x : HostData} (hx : x.values = []) {s t : Store} {v : Value}
    (h : x.toValue s = .ok (v, t)) : t.Mirrors x v ∧ t.KeysFrom x v := by
  have hmirrors := (toValue_madeBy hx s v t h).2
  exact ⟨hmirrors, hmirrors.keysFrom⟩

/-- All objects that are made of raw data have the keys of their maps in ascending order, and so
    have those that are made of a document. -/
theorem keys_ascending :
    (∀ (x : HostData) (s t : Store) (v : Value), x.values = [] → x.toValue s = .ok (v, t) →
      t.Mirrors x v ∧ t.KeysFrom x v) ∧
    (∀ (document : String) (s t : Store) (v : Value), Json.decode document s = .ok (v, t) →
      ∃ x, Json.read? document = some x ∧ t.Mirrors x v ∧ t.KeysFrom x v) ∧
    ∀ (document : List UInt8) (s t : Store) (v : Value), Cbor.decode document s = .ok (v, t) →
      ∃ x, Cbor.read? document = some x ∧ t.Mirrors x v ∧ t.KeysFrom x v := by
  refine ⟨fun x s t v hx h => mirrors_keysFrom hx h, ?_, ?_⟩
  · intro document s t v h
    obtain ⟨x, hx, hv⟩ := Json.read?_of_decode h
    exact ⟨x, hx, mirrors_keysFrom (Json.values_of_read? hx) hv⟩
  · intro document s t v h
    obtain ⟨x, hx, hv⟩ := Cbor.read?_of_decode h
    exact ⟨x, hx, mirrors_keysFrom (Cbor.values_of_read? hx) hv⟩

/-- Maps inside each other that are out of order, the innermost behind a pointer. A list, a number
    and a text are keys, and two of the keys have one text. -/
def shelves : HostData :=
  .pointer (.keyedMap [
    (.list [.int 1],
      .map [("b", .bool true), ("a", .list [.pointer (.map [("é", .big 2), ("z", .text "")])])]),
    (.int 1, .number "2.5"),
    (.pointer (.text "1"), .text "w")])

/-- A document with a key that comes again. -/
def jsonShelves : String := "\x7b\"b\":1,\"a\":[\x7b\"d\":0.5,\"c\":\"x\"\x7d],\"b\":2\x7d"

/-- A document with keys of two kinds. -/
def cborShelves : List UInt8 := [0xA3, 0x61, 0x62, 0xA0, 0x20, 0x81, 0x01, 0x61, 0x61, 0xF5]

theorem exists_jsonShelves : ∃ x, Json.read? jsonShelves = some x ∧ x.isAccepted = true := by
  have haccepted : (Json.read? jsonShelves).any isAccepted = true := by decide +kernel
  exact (Option.any_eq_true _ _).mp haccepted

theorem exists_cborShelves : ∃ x, Cbor.read? cborShelves = some x ∧ x.isAccepted = true := by
  have hread : Cbor.readItem Cbor.maxLevels .start cborShelves =
      some ⟨.map [(.text "b", .map []), (.int (-1), .list [.int 1]), (.text "a", .bool true)], [],
        by decide⟩ := by
    with_unfolding_all rfl
  refine ⟨_, by rw [Cbor.read?, hread]; rfl, ?_⟩
  simp only [Cbor.Item.toHostData, Cbor.entryData, Cbor.Item.keyData, Cbor.listData]
  rfl

theorem keys_ascending_shelves :
    (shelves.values = [] ∧ ∃ v t, shelves.toValue {} = .ok (v, t) ∧ t.Mirrors shelves v ∧
      t.KeysFrom shelves v) ∧
    (∃ v t, Json.decode jsonShelves {} = .ok (v, t) ∧
      ∃ x, Json.read? jsonShelves = some x ∧ t.Mirrors x v ∧ t.KeysFrom x v) ∧
    ∃ v t, Cbor.decode cborShelves {} = .ok (v, t) ∧
      ∃ x, Cbor.read? cborShelves = some x ∧ t.Mirrors x v ∧ t.KeysFrom x v := by
  obtain ⟨hdata, hjson, hcbor⟩ := keys_ascending
  refine ⟨⟨rfl, ?_⟩, ?_, ?_⟩
  · obtain ⟨v, t, hv, -⟩ := toValue_succeeds shelves (by decide +kernel) {}
    exact ⟨v, t, hv, hdata shelves {} t v rfl hv⟩
  · obtain ⟨x, hx, haccepted⟩ := exists_jsonShelves
    obtain ⟨v, t, hv, -⟩ := toValue_succeeds x haccepted {}
    rw [← Json.decode_of_read? hx] at hv
    exact ⟨v, t, hv, hjson jsonShelves {} t v hv⟩
  · obtain ⟨x, hx, haccepted⟩ := exists_cborShelves
    obtain ⟨v, t, hv, -⟩ := toValue_succeeds x haccepted {}
    rw [← Cbor.decode_of_read? hx] at hv
    exact ⟨v, t, hv, hcbor cborShelves {} t v hv⟩

end HostData

end ExprLang
