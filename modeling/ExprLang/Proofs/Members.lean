import ExprLang.Proofs.Assoc
import ExprLang.Store.Members
import Mathlib.Data.List.Basic

/-!
# Members whose keys are those of their values

Members are read in two ways: by going through the list of keys and by looking a key up in the map
of values. The two agree if the list has each key once and lists exactly the keys of the map
(`Members.WellFormed`). Every writing keeps that: it looks into the map and then changes both.
-/

namespace ExprLang

namespace Members

/-- Members whose list of keys has each key once and lists exactly the keys of the map, which has
    each key once as well. -/
structure WellFormed (m : Members) : Prop where
  nodup : m.keys.Nodup
  lists : ∀ key, key ∈ m.keys ↔ key ∈ m.vals.map Prod.fst
  single : (m.vals.map Prod.fst).Nodup

variable {m : Members} {key : Text} {v : Value}

theorem has_iff : m.has key = true ↔ key ∈ m.vals.map Prod.fst := Assoc.mem_keys_iff.symm

theorem has_iff_exists : m.has key = true ↔ ∃ v, m.get? key = some v := Option.isSome_iff_exists

theorem mem_vals_of_get? (h : m.get? key = some v) : (key, v) ∈ m.vals := Assoc.mem_of_lookup h

theorem mem_entries : (key, v) ∈ m.entries ↔ key ∈ m.keys ∧ m.get? key = some v := by
  simp only [entries, List.mem_filterMap, Option.map_eq_some_iff, Prod.mk.injEq]
  constructor
  · rintro ⟨k, hk, w, hw, rfl, rfl⟩
    exact ⟨hk, hw⟩
  · rintro ⟨hkey, hv⟩
    exact ⟨key, hkey, v, hv, rfl, rfl⟩

theorem mem_vals_of_mem_entries {entry : Text × Value} (h : entry ∈ m.entries) :
    entry ∈ m.vals :=
  mem_vals_of_get? (mem_entries.mp h).2

theorem map_fst_entries (m : Members) : m.entries.map Prod.fst = m.keys.filter m.has := by
  rw [entries, List.map_filterMap, ← List.filterMap_eq_filter]
  congr 1
  funext key
  cases h : m.get? key <;> simp [has, h, Option.guard]

/-! ## Writing -/

theorem get?_put (m : Members) (key k : Text) (v : Value) :
    (m.put key v).get? k = if k = key then some v else m.get? k :=
  Assoc.lookup_insert key v m.vals k

/-- A value after a writing is the one written or was there before. -/
theorem mem_vals_put {entry : Text × Value} (h : entry ∈ (m.put key v).vals) :
    entry = (key, v) ∨ entry ∈ m.vals :=
  Assoc.mem_insert h

/-- A key that the map has keeps its place in both. -/
theorem put_of_has (h : m.has key = true) (v : Value) :
    ∃ before old after, m.vals = before ++ (key, old) :: after ∧
      m.put key v = ⟨m.keys, before ++ (key, v) :: after⟩ := by
  obtain ⟨before, old, after, hvals, -, hinsert⟩ := Assoc.insert_of_mem (has_iff.mp h) v
  refine ⟨before, old, after, hvals, ?_⟩
  rw [put, if_pos h, hinsert]

/-- A key that the map does not have becomes the last one of both. -/
theorem put_of_not_has (h : m.has key = false) (v : Value) :
    m.put key v = ⟨m.keys ++ [key], m.vals ++ [(key, v)]⟩ := by
  have hnew : key ∉ m.vals.map Prod.fst := by
    rw [← has_iff, h]
    exact Bool.false_ne_true
  rw [put, h, Assoc.insert_of_notMem hnew]
  rfl

/-! ## Members that are well-formed -/

namespace WellFormed

theorem empty : Members.empty.WellFormed := ⟨List.nodup_nil, fun _ => Iff.rfl, List.nodup_nil⟩

theorem put (h : m.WellFormed) (key : Text) (v : Value) : (m.put key v).WellFormed := by
  have hkeys := Assoc.keys_insert key v m.vals
  refine ⟨?_, ?_, Assoc.nodup_insert h.single key v⟩
  · simp only [Members.put]
    split
    · exact h.nodup
    · next hnew =>
      refine List.nodup_append.mpr ⟨h.nodup, by simp, ?_⟩
      rintro k hk _ hkey rfl
      rw [List.mem_singleton.mp hkey, h.lists, ← has_iff] at hk
      exact hnew hk
  · intro k
    simp only [Members.put, has_iff, hkeys]
    split
    · exact h.lists k
    · rw [List.mem_append, List.mem_append, h.lists]

theorem putAll (h : m.WellFormed) (entries : List (Text × Value)) :
    (m.putAll entries).WellFormed := by
  induction entries generalizing m with
  | nil => exact h
  | cons entry entries ih => exact ih (h.put entry.1 entry.2)

theorem ofList (entries : List (Text × Value)) : (ofList entries).WellFormed :=
  empty.putAll entries

theorem mem_keys (h : m.WellFormed) : key ∈ m.keys ↔ m.has key = true := by
  rw [h.lists, has_iff]

theorem mem_keys_iff (h : m.WellFormed) : key ∈ m.keys ↔ ∃ v, m.get? key = some v :=
  h.mem_keys.trans has_iff_exists

theorem mem_entries (h : m.WellFormed) : (key, v) ∈ m.entries ↔ m.get? key = some v := by
  rw [Members.mem_entries, h.mem_keys_iff]
  exact ⟨And.right, fun hv => ⟨⟨v, hv⟩, hv⟩⟩

theorem map_fst_entries (h : m.WellFormed) : m.entries.map Prod.fst = m.keys := by
  rw [Members.map_fst_entries, List.filter_eq_self]
  exact fun key hkey => h.mem_keys.mp hkey

/-- Writing under a key that is there keeps the keys, and adds the key at the end otherwise. -/
theorem keys_put (h : m.WellFormed) (key : Text) (v : Value) :
    (m.put key v).keys = if key ∈ m.keys then m.keys else m.keys ++ [key] := by
  simp only [Members.put, h.mem_keys]

/-- A new key is written at the end. -/
theorem entries_put (h : m.WellFormed) (hkey : key ∉ m.keys) (v : Value) :
    (m.put key v).entries = m.entries ++ [(key, v)] := by
  have hold : m.keys.filterMap (fun k => ((m.put key v).get? k).map fun w => (k, w)) =
      m.entries := by
    refine List.filterMap_congr fun k hk => ?_
    rw [get?_put, if_neg]
    rintro rfl
    exact hkey hk
  rw [Members.entries, h.keys_put, if_neg hkey, List.filterMap_append, hold, List.filterMap_cons,
    get?_put, if_pos rfl]
  rfl

/-- Entries of new and different keys are written in their order. -/
theorem entries_putAll (h : m.WellFormed) {entries : List (Text × Value)}
    (hnodup : (m.keys ++ entries.map Prod.fst).Nodup) :
    (m.putAll entries).entries = m.entries ++ entries := by
  induction entries generalizing m with
  | nil => exact (List.append_nil _).symm
  | cons entry entries ih =>
    obtain ⟨key, v⟩ := entry
    rw [List.map_cons] at hnodup
    have hkey : key ∉ m.keys := by
      intro hmem
      exact (List.nodup_append.mp hnodup).2.2 key hmem key List.mem_cons_self rfl
    have hkeys : (m.put key v).keys = m.keys ++ [key] := by rw [h.keys_put, if_neg hkey]
    have hall := ih (h.put key v) (by rwa [hkeys, List.append_assoc, List.singleton_append])
    rw [h.entries_put hkey, List.append_assoc, List.singleton_append] at hall
    exact hall

end WellFormed

theorem entries_ofList {entries : List (Text × Value)} (h : (entries.map Prod.fst).Nodup) :
    (ofList entries).entries = entries :=
  WellFormed.empty.entries_putAll h

theorem keys_ofList {entries : List (Text × Value)} (h : (entries.map Prod.fst).Nodup) :
    (ofList entries).keys = entries.map Prod.fst := by
  rw [← (WellFormed.ofList entries).map_fst_entries, entries_ofList h]

end Members

end ExprLang
